import CPreprocessor.TokenStream.Source

/-!
Conditional groups. The open groups form a stack; each remembers whether the code around
it is active, whether a branch was taken and whether `#else` was seen.
-/

namespace CPreprocessor

/-- An open conditional group. -/
structure Group where
  /-- The directive that opened the group. -/
  name : Text
  pos : Pos
  /-- Whether the code around the group is active. -/
  outerActive : Bool
  /-- Whether a branch was active already. -/
  taken : Bool
  /-- Whether the current branch is active. -/
  active : Bool
  elseSeen : Bool := false
deriving DecidableEq, Repr

/-- The open groups, the innermost first. -/
abbrev Groups := List Group

namespace Groups

/-- Whether the text at this point is kept. -/
def active : Groups → Bool
  | [] => true
  | g :: _ => g.active

/-- Whether the innermost group stands in active code, so that its lines are examined. -/
def examined : Groups → Bool
  | [] => true
  | g :: _ => g.outerActive

/-- Opens a group. In inactive code its condition has no effect. -/
def push (name : Text) (pos : Pos) (cond : Bool) (gs : Groups) : Groups :=
  { name, pos, outerActive := active gs, taken := active gs && cond,
    active := active gs && cond } :: gs

/-- Whether the condition of an `#elif` decides anything. -/
def undecided : Groups → Bool
  | [] => false
  | g :: _ => g.outerActive && !g.taken && !g.elseSeen

/-- Begins a branch with a condition. -/
def elseIf (cond : Bool) (pos : Pos) : Groups → Except Error Groups
  | [] => .error { fault := .elifWithoutIf, pos }
  | g :: gs =>
    if g.elseSeen then .error { fault := .elifAfterElse, pos }
    else
      let active := g.outerActive && !g.taken && cond
      .ok ({ g with active, taken := g.taken || active } :: gs)

/-- Begins the last branch. -/
def otherwise (pos : Pos) : Groups → Except Error Groups
  | [] => .error { fault := .elseWithoutIf, pos }
  | g :: gs =>
    if g.elseSeen then .error { fault := .elseAfterElse, pos }
    else .ok ({ g with active := g.outerActive && !g.taken, taken := true, elseSeen := true } :: gs)

/-- Closes the innermost group. -/
def pop (pos : Pos) : Groups → Except Error Groups
  | [] => .error { fault := .endifWithoutIf, pos }
  | _ :: gs => .ok gs

/-- How the input ends: an open group is an error at its directive. -/
def atEnd : Groups → End
  | [] => .eof
  | g :: _ => .fault { fault := .unterminatedGroup g.name, pos := g.pos }

end Groups
end CPreprocessor

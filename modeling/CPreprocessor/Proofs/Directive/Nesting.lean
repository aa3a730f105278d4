import CPreprocessor.Directive.ActiveText

/-!
Conditional text as a tree. A group holds its branches, each with the text and the groups
inside it, and is interpreted by recursion: the first branch whose condition holds is
selected and the others are left alone. This is what the flat execution of directives, with
its stack of open groups, is measured against.
-/

namespace CPreprocessor

/-- A directive line: the token that opens it and the tokens after that, through the line
end. -/
structure HashLine where
  hash : Token
  tokens : List Token
deriving DecidableEq, Repr

/-- What a line does to the conditional groups. -/
inductive Role where
  | plain
  | opens
  | elseIf
  | otherwise
  | closes
deriving DecidableEq, Repr

def Directive.role : Directive → Role
  | ifHolds | ifDefined | ifNotDefined => .opens
  | elseIf => .elseIf
  | otherwise => .otherwise
  | endIf => .closes
  | define | undef => .plain

namespace HashLine

/-- The directive that a line names, the token that names it and the tokens after it. A line
without a name, or with an unknown one, has no directive. -/
def heading? (l : HashLine) : Option (Directive × Token × List Token) :=
  match l.tokens.dropWhile Token.isGap with
  | [] => none
  | name :: rest =>
    if name.isLineEnd then none
    else (Directive.ofName? name.text).map fun d => (d, name, rest)

def role (l : HashLine) : Role :=
  match l.heading? with
  | some (d, _, _) => d.role
  | none => .plain

/-- A text from its first line feed or carriage return on. -/
def fromLineBreak : Text → Text
  | [] => []
  | b :: t => if b = Byte.lineFeed ∨ b = Byte.carriageReturn then b :: t else fromLineBreak t

/-- What a line leaves in the output if it leaves anything: the white space that ends it,
from the first line break on. -/
def breaks (l : HashLine) : List Token :=
  match l.tokens.find? Token.isLineEnd with
  | none => []
  | some t =>
    match fromLineBreak t.text with
    | [] => []
    | text => [{ t with text }]

/-- The table after a line that belongs to no group. -/
def change (l : HashLine) (T : Table) : Except Error Table :=
  match l.heading? with
  | some (.define, _, rest) => (Definition.define T ⟨rest, .eof⟩).map Prod.fst
  | some (.undef, _, rest) => (Definition.undef T ⟨rest, .eof⟩).map Prod.fst
  | _ => .ok T

/-- Whether the condition of a line holds in a table. -/
def truth (l : HashLine) (T : Table) : Except Error Bool :=
  match l.heading? with
  | some (.ifDefined, name, rest) =>
    (Directive.State.definedCheck name ⟨rest, .eof⟩ { table := T }).map Prod.fst
  | some (.ifNotDefined, name, rest) =>
    (Directive.State.definedCheck name ⟨rest, .eof⟩ { table := T }).map fun r => !r.1
  | some (_, name, rest) =>
    Condition.holds T name.pos (rest.takeWhile fun t => !t.isLineEnd)
  | none => .ok false

/-- A line that must be blank after its name. -/
def blank (l : HashLine) : Except Error Unit :=
  match l.heading? with
  | some (_, _, rest) => (TokenStream.takeLineEnd (⟨rest, .eof⟩ : Line)).1.map fun _ => ()
  | none => .ok ()

end HashLine

/-- A line with a given role. -/
abbrev LineAs (r : Role) : Type :=
  { l : HashLine // l.role = r }

mutual

/-- Text, lines and whole groups one after the other. -/
inductive Code where
  | nil
  | text (t : Token) (rest : Code)
  | line (l : LineAs .plain) (rest : Code)
  | group (l : LineAs .opens) (body : Code) (more : Branches) (rest : Code)

/-- What follows the first branch of a group. -/
inductive Branches where
  | close (l : LineAs .closes)
  | otherwise (l : LineAs .otherwise) (body : Code) (last : LineAs .closes)
  | elseIf (l : LineAs .elseIf) (body : Code) (more : Branches)

end

/-- A token of text or a directive line. -/
inductive Item where
  | text (t : Token)
  | line (l : HashLine)
deriving DecidableEq, Repr

mutual

/-- The items of a tree in order. -/
def Code.items : Code → List Item
  | .nil => []
  | .text t rest => .text t :: rest.items
  | .line l rest => .line l.1 :: rest.items
  | .group l body more rest => .line l.1 :: (body.items ++ (more.items ++ rest.items))

def Branches.items : Branches → List Item
  | .close l => [.line l.1]
  | .otherwise l body last => .line l.1 :: (body.items ++ [.line last.1])
  | .elseIf l body more => .line l.1 :: (body.items ++ more.items)

end

/-- The items of a token sequence. A line is a directive if its first token that is not white
space is a hash; `start` tells whether the first token may be such a one. -/
def Item.ofTokens (start : Bool) (ts : List Token) : List Item :=
  match ts with
  | [] => []
  | t :: ts =>
    if start && t.isHash then
      .line ⟨t, (Line.read ts).1.tokens⟩ :: ofTokens true (Line.read ts).2
    else .text t :: ofTokens (ActiveText.startsLine start t) ts
termination_by ts.length
decreasing_by
  · exact Nat.lt_succ_of_le (Line.size_read_le ts)
  · exact Nat.lt_succ_self _

/-- The tokens that are kept and the macros after them, or the first error. -/
abbrev Outcome : Type :=
  Except Error (List Token × Table)

/-- An outcome with more tokens in front. -/
def Outcome.after (out : List Token) (r : Outcome) : Outcome :=
  r.map fun (ts, T) => (out ++ ts, T)

/-- Passes over the branches after a selected one. Nothing in them is evaluated; `before`
tells whether the selected branch comes directly before. -/
def Branches.pass (before : Bool) : Branches → Except Error (List Token)
  | .close l => do
    l.1.blank
    .ok l.1.breaks
  | .otherwise l _ last => do
    l.1.blank
    last.1.blank
    .ok ((if before then l.1.breaks else []) ++ last.1.breaks)
  | .elseIf l _ more => do
    let out ← more.pass false
    .ok ((if before then l.1.breaks else []) ++ out)

/-- A selected branch with the outcome `r`, and the branches after it. -/
def Branches.selected (r : Outcome) (m : Branches) : Outcome := do
  let (out, T) ← r
  let passed ← m.pass true
  .ok (out ++ passed, T)

mutual

/-- Interprets active text: the tokens it keeps and the table it leaves. -/
def Code.run : Code → Table → Outcome
  | .nil, T => .ok ([], T)
  | .text t rest, T => (rest.run T).after [t]
  | .line l rest, T => do
    let T ← l.1.change T
    (rest.run T).after l.1.breaks
  | .group l body more rest, T => do
    let b ← l.1.truth T
    let (out, T) ← if b then more.selected (body.run T) else more.choose T
    (rest.run T).after (l.1.breaks ++ out)

/-- Selects among the branches of a group in active text of which none was selected yet. -/
def Branches.choose : Branches → Table → Outcome
  | .close l, T => do
    l.1.blank
    .ok (l.1.breaks, T)
  | .otherwise l body last, T => do
    l.1.blank
    let (out, T) ← body.run T
    last.1.blank
    .ok (l.1.breaks ++ out ++ last.1.breaks, T)
  | .elseIf l body more, T => do
    let b ← l.1.truth T
    if b then (more.selected (body.run T)).after l.1.breaks else more.choose T

end

/-- What reading a source to its end gives: the tokens it hands out and its macros then. -/
def ActiveText.outcome {σ : Type} [Feed σ] (x : ActiveText σ) : Outcome :=
  match TokenStream.drain (Buffered.ofSource x) with
  | (⟨_, some e⟩, _) => .error e
  | (⟨out, none⟩, r) => .ok (out, r.source.state.table)

end CPreprocessor

import CPreprocessor.Condition
import CPreprocessor.Directive.Definition
import CPreprocessor.Directive.Group

/-!
The execution of one directive line. A line changes the macro table or the open groups and
leaves behind the line breaks of the white space that ends it, so that the output keeps
its lines.
-/

namespace CPreprocessor

/-- The directives that are executed. -/
inductive Directive where
  | ifHolds
  | ifDefined
  | ifNotDefined
  | elseIf
  | otherwise
  | endIf
  | define
  | undef
deriving DecidableEq, Repr

namespace Directive

def all : List Directive :=
  [ifHolds, ifDefined, ifNotDefined, elseIf, otherwise, endIf, define, undef]

def name : Directive → Text
  | ifHolds => ascii "if"
  | ifDefined => ascii "ifdef"
  | ifNotDefined => ascii "ifndef"
  | elseIf => ascii "elif"
  | otherwise => ascii "else"
  | endIf => ascii "endif"
  | define => ascii "define"
  | undef => ascii "undef"

def ofName? (t : Text) : Option Directive :=
  all.find? fun d => d.name == t

/-- Whether the directive is part of a conditional group. -/
def isConditional : Directive → Bool
  | define | undef => false
  | _ => true

/-- A record of an executed directive: its name, where the name stands, and the number of
open groups after it. -/
structure Event where
  name : Text
  pos : Pos
  depth : Nat
deriving DecidableEq, Repr

/-- What directives work on: the macros, the open groups and the record, latest first. -/
structure State where
  table : Table := {}
  groups : Groups := []
  events : List Event := []
deriving DecidableEq, Repr

namespace State

def active (st : State) : Bool :=
  st.groups.active

/-- Records the directive called `name`. -/
def record (name : Token) (st : State) : State :=
  { st with events := ⟨name.text, name.pos, st.groups.length⟩ :: st.events }

/-- Whether the name that a line checks is defined, and the line end. -/
def definedCheck (name : Token) (l : Line) (st : State) : Except Error (Bool × Option Token) :=
  match TokenStream.takeSpace false l with
  | (⟨_, some e⟩, _) => .error e
  | (⟨_, none⟩, l) =>
    match TokenStream.takeName l with
    | (.error e, _) => .error (e.orAt name.pos)
    | (.ok id, l) => do
      let stop ← (TokenStream.takeLineEnd l).1
      .ok (st.table.isDefined id.text, stop)

/-- Whether the condition that a line states holds, and the line end. -/
def conditionCheck (name : Token) (l : Line) (st : State) :
    Except Error (Bool × Option Token) := do
  let (body, stop) ← l.split
  let b ← Condition.holds st.table name.pos body
  .ok (b, stop)

/-- Opens a group. In inactive code the line is not examined, and the group is open even if
the line cannot be read to its end. The definition is expanded where it is used, so that
`check` is computed in active code only. -/
@[macro_inline]
def openGroup (name : Token) (l : Line) (check : Except Error (Bool × Option Token))
    (st : State) : State × Except Error (Option Token) :=
  if st.active then
    match check with
    | .error e => (st, .error e)
    | .ok (b, stop) => ({ st with groups := st.groups.push name.text name.pos b }, .ok stop)
  else ({ st with groups := st.groups.push name.text name.pos false }, l.finish)

/-- Begins a branch with a condition, which is evaluated only if it decides anything. -/
def elseIf (name : Token) (l : Line) (st : State) : Except Error (State × Option Token) := do
  let (body, stop) ← l.split
  let cond ← if st.groups.undecided then Condition.holds st.table name.pos body else .ok false
  let groups ← st.groups.elseIf cond name.pos
  .ok ({ st with groups }, stop)

/-- The line end of `#else` and `#endif`, before which a live line must be blank. -/
def closingEnd (l : Line) (st : State) : Except Error (Option Token) :=
  if st.groups.examined then (TokenStream.takeLineEnd l).1 else l.finish

/-- Changes the macro table, or skips the line in inactive code. -/
def changeTable (l : Line) (change : Except Error (Table × Option Token)) (st : State) :
    Except Error (State × Option Token) :=
  if st.active then change.map fun (table, stop) => ({ st with table }, stop)
  else l.finish.map fun stop => (st, stop)

/-- A result that leaves the state alone when it fails. -/
def orKeep (st : State) : Except Error (State × Option Token) →
    State × Except Error (Option Token)
  | .ok (st, stop) => (st, .ok stop)
  | .error e => (st, .error e)

/-- Executes the directive `d`, called `name`, on the rest of its line. -/
def run (d : Directive) (name : Token) (l : Line) (st : State) :
    State × Except Error (Option Token) :=
  match d with
  | .ifHolds => st.openGroup name l (st.conditionCheck name l)
  | .ifDefined => st.openGroup name l (st.definedCheck name l)
  | .ifNotDefined =>
    st.openGroup name l ((st.definedCheck name l).map fun (b, stop) => (!b, stop))
  | .elseIf => st.orKeep (st.elseIf name l)
  | .otherwise => st.orKeep do
    let stop ← st.closingEnd l
    let groups ← st.groups.otherwise name.pos
    .ok ({ st with groups }, stop)
  | .endIf => st.orKeep do
    let stop ← st.closingEnd l
    let groups ← st.groups.pop name.pos
    .ok ({ st with groups }, stop)
  | .define => st.orKeep (st.changeTable l (Definition.define st.table l))
  | .undef => st.orKeep (st.changeTable l (Definition.undef st.table l))

end State

/-- What is left of the white space that ends a line: its text from the first line break
on. -/
def lineBreak (stop : Option Token) : List Token :=
  match stop with
  | none => []
  | some t =>
    match t.text.dropWhile fun b => !Byte.isLineBreak b with
    | [] => []
    | text => [{ t with text }]

/-- A line whose name is no directive: it is kept as it is in active code if `keep` is set,
and dropped otherwise. -/
def otherLine (keep : Bool) (hash : Token) (gap : List Token) (name : Token) (l : Line)
    (st : State) : State × Except Error (List Token) :=
  match l.split with
  | .error e => (st, .error e)
  | .ok (body, stop) =>
    if st.active && keep then
      (st.record name, .ok (hash :: gap ++ name :: body ++ stop.toList))
    else (st, .ok (if st.active then lineBreak stop else []))

/-- Executes the line after the token `hash` and returns the tokens that take its place. -/
def execute (keep : Bool) (hash : Token) (l : Line) (st : State) :
    State × Except Error (List Token) :=
  match l.tokens.dropWhile Token.isGap with
  | [] =>
    match l.ending with
    | .eof => (st, .ok [])
    | .fault e => (st, .error e)
  | name :: rest =>
    if name.isLineEnd then (st, .ok (if st.active then lineBreak (some name) else []))
    else match ofName? name.text with
      | none =>
        let gap := l.tokens.takeWhile Token.isGap
        otherLine keep hash gap name { l with tokens := rest } st
      | some d =>
        match st.run d name { l with tokens := rest } with
        | (after, .error e) => (after, .error e)
        | (after, .ok stop) =>
          (if st.active || d.isConditional then after.record name else after,
            .ok (if st.active || after.active then lineBreak stop else []))

end Directive
end CPreprocessor

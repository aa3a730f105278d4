import CPreprocessor.Directive.Line
import CPreprocessor.Macro.Table

/-!
The lines of `#define` and `#undef`. A parenthesis directly after the name of a macro
makes it function-like; otherwise white space must separate the name from the body.
-/

namespace CPreprocessor
namespace Definition

/-- Reads the macro name at the front of a line. -/
def readName (l : Line) : Except Error (Token × Line) :=
  match TokenStream.takeSpace false l with
  | (⟨_, some e⟩, _) => .error e
  | (⟨_, none⟩, l) =>
    match TokenStream.takeName l with
    | (.error e, _) => .error e
    | (.ok name, l) =>
      if Vocabulary.isReserved name.text then
        .error { fault := .reservedName name.text, pos := name.pos }
      else .ok (name, l)

/-- What a parameter list expects next: its first parameter or its end, a further
parameter, the end after an ellipsis, or what separates parameters. -/
inductive Expecting where
  | first
  | param
  | afterEllipsis
  | separator
deriving DecidableEq, Repr

/-- Reads a parameter list after its opening parenthesis, which may not go beyond the line:
the parameters and the tokens after the list. -/
def params (name : Token) (ending : End) : Expecting → List Token →
    Except Error (List Text × List Token)
  | _, [] =>
    match ending with
    | .eof => .error { fault := .unclosedParameters name.text, pos := name.pos }
    | .fault e => .error e
  | st, t :: ts =>
    if t.isGap then params name ending st ts
    else if t.isLineEnd then
      .error { fault := .unclosedParameters name.text, pos := name.pos }
    else match st with
      | .separator =>
        if t.isPunct (ascii ")") then .ok ([], ts)
        else if t.isPunct (ascii ",") then params name ending .param ts
        else .error { fault := .expectedParameterSeparator name.text t.text, pos := t.pos }
      | .afterEllipsis =>
        if t.isPunct (ascii ")") then .ok ([Vocabulary.variadicName], ts)
        else .error { fault := .unclosedEllipsis name.text, pos := t.pos }
      | .first | .param =>
        if t.isPunct (ascii ")") && st == .first then .ok ([], ts)
        else if t.isPunct (ascii "...") then params name ending .afterEllipsis ts
        else if t.kind = .identifier then
          if t.text = Vocabulary.variadicName then
            .error { fault := .reservedParameter t.text, pos := t.pos }
          else (params name ending .separator ts).map fun (ps, rest) => (t.text :: ps, rest)
        else .error { fault := .expectedParameter t.text, pos := t.pos }

/-- The parameters after a macro name, if it is function-like, and the rest of the line. -/
def head (name : Token) (l : Line) : Except Error (Option (List Text) × Line) :=
  match l.tokens with
  | [] =>
    match l.ending with
    | .eof => .ok (none, l)
    | .fault e => .error e
  | t :: ts =>
    if t.isPunct (ascii "(") then
      (params name l.ending .first ts).map fun (ps, rest) => (some ps, { l with tokens := rest })
    else if t.isSpace then .ok (none, l)
    else .error { fault := .noSpaceAfterName name.text, pos := t.pos }

/-- Reads the macro that a `#define` line states, and the line end. -/
def read (l : Line) : Except Error (Macro × Option Token) := do
  let (name, l) ← readName l
  let (ps, l) ← head name l
  let (body, stop) ← l.split
  .ok ({ name := name.text, functionLike := ps.isSome, params := ps.getD [], body,
         pos := name.pos }, stop)

/-- Executes a `#define` line. -/
def define (table : Table) (l : Line) : Except Error (Table × Option Token) := do
  let (m, stop) ← read l
  let table ← table.define m
  .ok (table, stop)

/-- Executes an `#undef` line. -/
def undef (table : Table) (l : Line) : Except Error (Table × Option Token) := do
  let (name, l) ← readName l
  let stop ← (TokenStream.takeLineEnd l).1
  .ok (table.undef name.text, stop)

end Definition
end CPreprocessor

import CPreprocessor.Fault

/-!
Macro definitions and the rules they must obey: no reserved names, distinct parameters, no
joining operator at an end of the body, and in function-like macros a parameter after
every `#`.
-/

namespace CPreprocessor

/-- A macro. The parameters are distinct; a variadic macro has the variadic name as its last
one. The body has no white space at its ends. -/
structure Macro where
  name : Text
  functionLike : Bool := false
  params : List Text := []
  body : List Token := []
  pos : Pos := {}
deriving DecidableEq, Repr

namespace Macro

/-- Whether the macro takes a variable number of arguments. -/
def isVariadic (m : Macro) : Bool :=
  m.params.getLast? == some Vocabulary.variadicName

/-- What is wrong with a parameter list after the parameters `seen`. -/
def paramError (pos : Pos) (seen : List Text) : List Text → Option Error
  | [] => none
  | p :: ps =>
    if Vocabulary.isReserved p && !(p == Vocabulary.variadicName && ps == []) then
      some { fault := .reservedParameter p, pos }
    else if seen.contains p then some { fault := .duplicateParameter p, pos }
    else paramError pos (p :: seen) ps

/-- Whether the first token that is not white space is one of the parameters. -/
def startsWithParam (params : List Text) (ts : List Token) : Bool :=
  match ts.dropWhile Token.isSpace with
  | t :: _ => t.kind == .identifier && params.contains t.text
  | [] => false

/-- What is wrong with the tokens of a body. -/
def bodyError (m : Macro) : List Token → Option Error
  | [] => none
  | t :: ts =>
    if t.isIdent Vocabulary.variadicName && !m.isVariadic then
      some { fault := .variadicNameInBody, pos := t.pos }
    else if m.functionLike && t.isHash && !startsWithParam m.params ts then
      some { fault := .hashWithoutParameter, pos := t.pos }
    else bodyError m ts

/-- Whether the joining operator stands at an end of the body. -/
def pasteAtEnd (m : Macro) : Bool :=
  m.body.head?.any Token.isPaste || m.body.getLast?.any Token.isPaste

/-- The first rule the macro violates. -/
def error? (m : Macro) : Option Error :=
  if Vocabulary.isReserved m.name then some { fault := .reservedName m.name, pos := m.pos }
  else match paramError m.pos [] m.params with
    | some e => some e
    | none =>
      if m.pasteAtEnd then some { fault := .pasteAtBodyEnd, pos := m.pos }
      else bodyError m m.body

end Macro
end CPreprocessor

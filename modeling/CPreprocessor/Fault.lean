import CPreprocessor.Token

/-!
What can go wrong while preprocessing. A fault is a cause with the data its message
shows; an error is a fault at a position, possibly in a named file.
-/

namespace CPreprocessor

/-- The five classes of faults. -/
inductive FaultKind where
  | lexical
  | directive
  | nesting
  | invocation
  | evaluation
deriving DecidableEq, Repr

namespace FaultKind

/-- The classes in the order of their numbers, from one. -/
def all : List FaultKind :=
  [lexical, directive, nesting, invocation, evaluation]

def name : FaultKind → Text
  | lexical => ascii "lexical error"
  | directive => ascii "directive syntax error"
  | nesting => ascii "conditional nesting error"
  | invocation => ascii "macro invocation error"
  | evaluation => ascii "evaluation error"

/-- The class with number `n`. -/
def ofNumber? : Int → Option FaultKind
  | .ofNat (n + 1) => all[n]?
  | _ => none

/-- The name of the class with number `n`, or a name made of the number. -/
def nameOfNumber (n : Int) : Text :=
  match ofNumber? n with
  | some k => k.name
  | none => ascii "ErrorKind(" ++ Text.signedDecimal n ++ ascii ")"

end FaultKind

/-- Why an escape sequence in a character constant has no value. -/
inductive EscapeFault where
  | outOfRange
  | incomplete
  | badHex
  | badCharacterName
  | unknown
deriving DecidableEq, Repr

def EscapeFault.message : EscapeFault → Text
  | outOfRange => ascii "escape sequence out of range"
  | incomplete => ascii "incomplete escape sequence"
  | badHex => ascii "invalid hex escape sequence"
  | badCharacterName => ascii "incomplete universal character name"
  | unknown => ascii "unknown escape sequence"

/-- The closing tokens an expression can miss. -/
inductive Closer where
  | parenthesis
  | colon
deriving DecidableEq, Repr

namespace Closer

def spelling : Closer → Text
  | parenthesis => ascii ")"
  | colon => ascii ":"

/-- Where the closing token belongs. -/
def place : Closer → Text
  | parenthesis => ascii "in expression"
  | colon => ascii "in conditional expression"

end Closer

/-- The causes of failure. -/
inductive Fault where
  | unterminatedComment
  | separatorWithoutDigit
  | unclosedLiteral (quote : UInt8)
  | hexEscapeWithoutDigits
  | incompleteCharacterName (letter : UInt8)
  | unknownEscape (byte : UInt8)
  | unterminatedRawString
  | rawDelimiterByte (byte : UInt8)
  | rawDelimiterTooLong
  | reservedName (name : Text)
  | reservedParameter (name : Text)
  | duplicateParameter (name : Text)
  | pasteAtBodyEnd
  | variadicNameInBody
  | hashWithoutParameter
  | expectedIdentifier (found : Option Token)
  | unexpectedAtLineEnd (found : Token)
  | noSpaceAfterName (name : Text)
  | unclosedParameters (name : Text)
  | unclosedEllipsis (name : Text)
  | expectedParameter (found : Text)
  | expectedParameterSeparator (name found : Text)
  | elifWithoutIf
  | elifAfterElse
  | elseWithoutIf
  | elseAfterElse
  | endifWithoutIf
  | unterminatedGroup (directive : Text)
  | variadicNameInText
  | nestedTooDeeply (limit : Nat) (name : Text)
  | unterminatedArguments (name : Text)
  | tooManyArguments (name : Text) (given takes : Nat)
  | tooFewArguments (name : Text) (takes given : Nat)
  | tooFewVariadicArguments (name : Text) (least given : Nat)
  | badPaste (left right : Text)
  | definedWithoutName
  | unclosedDefined
  | missingExpression
  | missingOperator (found : Text)
  | missingCloser (closer : Closer) (found : Option Text)
  | missingValue
  | divisionByZero
  | negativeShift (count : Int)
  | tokenInExpression (found : Text)
  | floatingConstant (constant : Text)
  | badSuffix (suffix : Text)
  | constantTooLarge (constant : Text)
  | badConstant (constant : Text)
  | emptyCharacter
  | badEscape (cause : EscapeFault) (constant : Text)
deriving DecidableEq, Repr

namespace Fault

open Text (quoted quotedByte decimal signedDecimal)

def kind : Fault → FaultKind
  | unterminatedComment | separatorWithoutDigit | unclosedLiteral _ | hexEscapeWithoutDigits
  | incompleteCharacterName _ | unknownEscape _ | unterminatedRawString | rawDelimiterByte _
  | rawDelimiterTooLong => .lexical
  | reservedName _ | reservedParameter _ | duplicateParameter _ | pasteAtBodyEnd
  | variadicNameInBody | hashWithoutParameter | expectedIdentifier _ | unexpectedAtLineEnd _
  | noSpaceAfterName _ | unclosedParameters _ | unclosedEllipsis _ | expectedParameter _
  | expectedParameterSeparator _ _ => .directive
  | elifWithoutIf | elifAfterElse | elseWithoutIf | elseAfterElse | endifWithoutIf
  | unterminatedGroup _ => .nesting
  | variadicNameInText | nestedTooDeeply _ _ | unterminatedArguments _ | tooManyArguments _ _ _
  | tooFewArguments _ _ _ | tooFewVariadicArguments _ _ _ | badPaste _ _ => .invocation
  | definedWithoutName | unclosedDefined | missingExpression | missingOperator _
  | missingCloser _ _ | missingValue | divisionByZero | negativeShift _ | tokenInExpression _
  | floatingConstant _ | badSuffix _ | constantTooLarge _ | badConstant _ | emptyCharacter
  | badEscape _ _ => .evaluation

def message : Fault → Text
  | unterminatedComment => ascii "unterminated comment"
  | separatorWithoutDigit => ascii "expected digit or letter after digit separator"
  | unclosedLiteral q => ascii "missing terminating " ++ Utf8.encode q.toNat ++ ascii " character"
  | hexEscapeWithoutDigits => ascii "\\x used with no following hex digits"
  | incompleteCharacterName c =>
    ascii "incomplete universal character name \\" ++ Utf8.encode c.toNat
  | unknownEscape b => ascii "unknown escape sequence '\\" ++ Utf8.encode b.toNat ++ ascii "'"
  | unterminatedRawString => ascii "unterminated raw string"
  | rawDelimiterByte b =>
    ascii "invalid character " ++ quotedByte b ++ ascii " in raw string delimiter"
  | rawDelimiterTooLong => ascii "raw string delimiter longer than 16 characters"
  | reservedName n => quoted n ++ ascii " cannot be used as a macro name"
  | reservedParameter n => quoted n ++ ascii " cannot be used as a macro parameter"
  | duplicateParameter n => ascii "duplicate macro parameter " ++ quoted n
  | pasteAtBodyEnd => ascii "'##' cannot appear at either end of a macro expansion"
  | variadicNameInBody | variadicNameInText =>
    ascii "__VA_ARGS__ can only appear in the expansion of a variadic macro"
  | hashWithoutParameter => ascii "'#' is not followed by a macro parameter"
  | expectedIdentifier none => ascii "expected identifier, found end of input"
  | expectedIdentifier (some t) => ascii "expected identifier, found " ++ t.found
  | unexpectedAtLineEnd t => ascii "unexpected " ++ t.found ++ ascii " at end of directive"
  | noSpaceAfterName n => ascii "missing whitespace after the macro name " ++ quoted n
  | unclosedParameters n => ascii "missing ')' in parameter list of " ++ quoted n
  | unclosedEllipsis n => ascii "missing ')' after \"...\" in parameter list of " ++ quoted n
  | expectedParameter t => ascii "expected parameter name, found " ++ quoted t
  | expectedParameterSeparator n t =>
    ascii "expected ',' or ')' in parameter list of " ++ quoted n ++ ascii ", found " ++ quoted t
  | elifWithoutIf => ascii "#elif without #if"
  | elifAfterElse => ascii "#elif after #else"
  | elseWithoutIf => ascii "#else without #if"
  | elseAfterElse => ascii "#else after #else"
  | endifWithoutIf => ascii "#endif without #if"
  | unterminatedGroup d => ascii "unterminated #" ++ d
  | nestedTooDeeply limit n =>
    ascii "macro expansion nested too deeply (" ++ decimal limit ++ ascii " levels) expanding "
      ++ quoted n
  | unterminatedArguments n => ascii "unterminated argument list invoking macro " ++ quoted n
  | tooManyArguments n given takes =>
    ascii "macro " ++ quoted n ++ ascii " passed " ++ decimal given
      ++ ascii " arguments, but takes just " ++ decimal takes
  | tooFewArguments n takes given =>
    ascii "macro " ++ quoted n ++ ascii " requires " ++ decimal takes
      ++ ascii " arguments, but only " ++ decimal given ++ ascii " given"
  | tooFewVariadicArguments n least given =>
    ascii "macro " ++ quoted n ++ ascii " requires at least " ++ decimal least
      ++ ascii " arguments, but only " ++ decimal given ++ ascii " given"
  | badPaste l r =>
    ascii "pasting " ++ quoted l ++ ascii " and " ++ quoted r
      ++ ascii " does not give a valid preprocessing token"
  | definedWithoutName => ascii "operator \"defined\" requires an identifier"
  | unclosedDefined => ascii "missing ')' after \"defined\""
  | missingExpression => ascii "missing expression"
  | missingOperator t => ascii "missing binary operator before " ++ quoted t
  | missingCloser c none => ascii "expected '" ++ c.spelling ++ ascii "' " ++ c.place
  | missingCloser c (some t) =>
    ascii "expected '" ++ c.spelling ++ ascii "' " ++ c.place ++ ascii ", found " ++ quoted t
  | missingValue => ascii "expected value in expression"
  | divisionByZero => ascii "division by zero in expression"
  | negativeShift n => ascii "negative shift count " ++ signedDecimal n
  | tokenInExpression t =>
    ascii "token " ++ quoted t ++ ascii " is not valid in preprocessor expressions"
  | floatingConstant t => ascii "floating constant " ++ t ++ ascii " in preprocessor expression"
  | badSuffix s => ascii "invalid suffix " ++ quoted s ++ ascii " on integer constant"
  | constantTooLarge t => ascii "integer constant " ++ t ++ ascii " is too large"
  | badConstant t => ascii "invalid integer constant " ++ t
  | emptyCharacter => ascii "empty character constant"
  | badEscape cause t => cause.message ++ ascii " in character constant " ++ t

end Fault

/-- A fault at a place. The file is empty as long as none is known. -/
structure Error where
  fault : Fault
  pos : Pos := {}
  file : Text := []
deriving DecidableEq, Repr

namespace Error

/-- A message with the place it is about: the file if there is one, and line and column if
the line is positive. -/
def located (file : Text) (pos : Pos) (message : Text) : Text :=
  let source := if file = [] then [] else file ++ ascii ":"
  let place := if 0 < pos.line then pos.text ++ ascii ":" else []
  if source = [] ∧ place = [] then message else source ++ place ++ ascii " " ++ message

/-- The whole message. -/
def text (e : Error) : Text :=
  located e.file e.pos e.fault.message

/-- Names the file an error without one comes from. -/
def inFile (name : Text) (e : Error) : Error :=
  if e.file = [] then { e with file := name } else e

/-- Gives a place to an error that has none. -/
def orAt (pos : Pos) (e : Error) : Error :=
  if e.pos.isValid then e else { e with pos }

end Error
end CPreprocessor

import CPreprocessor.TokenStream

/-!
Printing tokens as text. A single space goes between two tokens that would be read as
something else if they touched.
-/

namespace CPreprocessor
namespace Printer

/-- Whether a number ends in an exponent letter, after which a sign would belong to it. -/
def endsInExponent (t : Text) : Bool :=
  t.getLast?.any Byte.isExponent

/-- Whether `prev` and `next`, printed back to back, would be read as other tokens. -/
def wouldFuse (prev next : Token) : Bool :=
  match next.text with
  | [] => false
  | c :: rest =>
    if prev.text = [] || prev.isSpace || next.isSpace then false
    else match prev.kind with
      | .number =>
        Byte.isIdent c || c == '.'.toUInt8 || c == Byte.apostrophe
          || (Byte.isSign c && endsInExponent prev.text)
      | .identifier =>
        Byte.isIdent c
          || ((next.kind == .string || next.kind == .character)
            && Vocabulary.isEncoding prev.text)
      | .punctuator =>
        (prev.text == ascii "/" && (c == '/'.toUInt8 || c == '*'.toUInt8))
          || (prev.text == ascii "." && (c == '.'.toUInt8 || Byte.isDigit c))
          || Vocabulary.isPunctuator (prev.text ++ [c])
          || (rest != [] && Vocabulary.isPunctuator (prev.text ++ c :: rest.take 1))
      | _ => false

/-- What is printed for `next` after `prev`. -/
def piece (prev next : Token) : Text :=
  if wouldFuse prev next then Byte.space :: next.text else next.text

/-- What is printed for each token after `prev`. -/
def piecesAfter (prev : Token) : List Token → List Text
  | [] => []
  | t :: ts => piece prev t :: piecesAfter t ts

/-- What is printed for each token, from the beginning of the output. -/
def pieces : List Token → List Text
  | [] => []
  | t :: ts => t.text :: piecesAfter t ts

/-- The text of a token sequence. -/
def render (ts : List Token) : Text :=
  (pieces ts).flatten

end Printer

/-- Prints a stream to its end: the text, and the error that ended it early. -/
def TokenStream.print {ρ : Type} [TokenStream ρ] (r : ρ) : (Text × Option Error) × ρ :=
  let (out, r) := drain r
  ((Printer.render out.tokens, out.error), r)

end CPreprocessor

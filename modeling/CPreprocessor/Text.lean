/-!
Texts are byte sequences. Offsets, columns and lengths count bytes, and source text
that is not UTF-8 needs no separate representation.
-/

namespace CPreprocessor

/-- A sequence of bytes: source text, a spelling, a message. -/
abbrev Text := List UInt8

/-- The bytes of a literal that holds ASCII characters only. -/
def ascii (s : String) : Text :=
  s.toList.map Char.toUInt8

namespace Byte

@[match_pattern] abbrev tab : UInt8 := 0x09
@[match_pattern] abbrev lineFeed : UInt8 := 0x0a
@[match_pattern] abbrev verticalTab : UInt8 := 0x0b
@[match_pattern] abbrev formFeed : UInt8 := 0x0c
@[match_pattern] abbrev carriageReturn : UInt8 := 0x0d
@[match_pattern] abbrev space : UInt8 := 0x20
@[match_pattern] abbrev quote : UInt8 := 0x22
@[match_pattern] abbrev apostrophe : UInt8 := 0x27
@[match_pattern] abbrev backslash : UInt8 := 0x5c
@[match_pattern] abbrev backquote : UInt8 := 0x60

/-- The bytes from `first` to `last`. -/
def within (first last : Char) (b : UInt8) : Bool :=
  first.toUInt8 ≤ b && b ≤ last.toUInt8

def isDigit (b : UInt8) : Bool :=
  within '0' '9' b

def isOctal (b : UInt8) : Bool :=
  within '0' '7' b

def isHex (b : UInt8) : Bool :=
  isDigit b || within 'a' 'f' b || within 'A' 'F' b

def isLetter (b : UInt8) : Bool :=
  within 'A' 'Z' b || within 'a' 'z' b

/-- The bytes an identifier may begin with. -/
def isIdentStart (b : UInt8) : Bool :=
  b == '_'.toUInt8 || isLetter b

/-- The bytes an identifier may continue with. -/
def isIdent (b : UInt8) : Bool :=
  isIdentStart b || isDigit b

def isLineBreak (b : UInt8) : Bool :=
  b == lineFeed || b == carriageReturn

/-- White space that stays on its line. -/
def isBlank (b : UInt8) : Bool :=
  b == space || b == tab || b == verticalTab || b == formFeed

def isSign (b : UInt8) : Bool :=
  b == '+'.toUInt8 || b == '-'.toUInt8

/-- The letters that begin an exponent inside a preprocessing number. -/
def isExponent (b : UInt8) : Bool :=
  b == 'e'.toUInt8 || b == 'E'.toUInt8 || b == 'p'.toUInt8 || b == 'P'.toUInt8

/-- Lower case of an ASCII letter; every other byte is kept. -/
def toLower (b : UInt8) : UInt8 :=
  if within 'A' 'Z' b then b + 0x20 else b

/-- The value of a digit in any base up to 36, letters in either case. -/
def digitValue? (b : UInt8) : Option Nat :=
  if isDigit b then some (b.toNat - 0x30)
  else if isLetter b then some ((toLower b).toNat - 0x61 + 10)
  else none

end Byte

namespace Text

/-- Bytewise lexicographic order. -/
def le : Text → Text → Bool
  | [], _ => true
  | _ :: _, [] => false
  | a :: s, b :: t => if a = b then le s t else a < b

/-- The texts in increasing byte order. -/
def sort (ts : List Text) : List Text :=
  ts.mergeSort le

/-- Splits at the first occurrence of a byte, which is dropped. -/
def splitFirst (b : UInt8) : Text → Option (Text × Text)
  | [] => none
  | c :: t => if c = b then some ([], t) else (splitFirst b t).map fun (l, r) => (c :: l, r)

/-- The rest of `t` after the beginning `p`, if it begins so. -/
def dropStart? : Text → Text → Option Text
  | [], t => some t
  | _ :: _, [] => none
  | a :: p, b :: t => if a = b then dropStart? p t else none

/-- The text before and after the first occurrence of `p`, a nonempty text. -/
def splitAt? (p : Text) : Text → Option (Text × Text)
  | [] => none
  | b :: t =>
    match dropStart? p (b :: t) with
    | some r => some ([], r)
    | none => (splitAt? p t).map fun (l, r) => (b :: l, r)

/-- The text before and after the last occurrence of `p`, a nonempty text. -/
def splitAtLast? (p : Text) : Text → Option (Text × Text)
  | [] => none
  | b :: t =>
    match splitAtLast? p t with
    | some (l, r) => some (b :: l, r)
    | none => (dropStart? p (b :: t)).map fun r => ([], r)

/-- The lines of a text with the line feeds that end them. The last line has none and may be
empty. -/
def lines : Text → List Text
  | [] => [[]]
  | b :: t =>
    match lines t with
    | [] => [[b]]
    | l :: ls => if b = Byte.lineFeed then [b] :: l :: ls else (b :: l) :: ls

/-- Copies a text with `r` in place of `p`, after `skip` bytes that are left out. -/
def replaceFrom (p r : Text) : (skip : Nat) → Text → Text
  | _, [] => []
  | skip + 1, _ :: t => replaceFrom p r skip t
  | 0, b :: t =>
    if (dropStart? p (b :: t)).isSome then r ++ replaceFrom p r (p.length - 1) t
    else b :: replaceFrom p r 0 t

/-- Puts `r` in place of every occurrence of `p`, a nonempty text, from left to right. -/
def replace (p r : Text) (t : Text) : Text :=
  replaceFrom p r 0 t

end Text
end CPreprocessor

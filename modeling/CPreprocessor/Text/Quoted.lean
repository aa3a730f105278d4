import CPreprocessor.Text.Decimal
import CPreprocessor.Text.Printable
import CPreprocessor.Text.Utf8

/-!
Quoted texts as they appear in messages. Quotes and backslashes are escaped, printable
characters stand for themselves, and everything else has an escape that names it.
-/

namespace CPreprocessor
namespace Text

/-- The letter that names a control character after a backslash. -/
def controlLetter? (n : Nat) : Option UInt8 :=
  match n with
  | 0x07 => some 'a'.toUInt8
  | 0x08 => some 'b'.toUInt8
  | 0x09 => some 't'.toUInt8
  | 0x0a => some 'n'.toUInt8
  | 0x0b => some 'v'.toUInt8
  | 0x0c => some 'f'.toUInt8
  | 0x0d => some 'r'.toUInt8
  | _ => none

/-- A backslash, a letter and a hexadecimal number of fixed width. -/
def numericEscape (letter : Char) (width n : Nat) : Text :=
  Byte.backslash :: letter.toUInt8 :: hexadecimal width n

/-- One character or stray byte inside quotes made of `mark`. -/
def quoteChunk (mark : UInt8) : Utf8.Chunk → Text
  | .byte b => numericEscape 'x' 2 b.toNat
  | .char n spelling =>
    if n = mark.toNat ∨ n = Byte.backslash.toNat then Byte.backslash :: spelling
    else if isPrintable n then spelling
    else match controlLetter? n with
      | some letter => [Byte.backslash, letter]
      | none =>
        if n < 0x80 then numericEscape 'x' 2 n
        else if n < 0x10000 then numericEscape 'u' 4 n
        else numericEscape 'U' 8 n

/-- `t` between two `mark`s. -/
def quoteWith (mark : UInt8) (t : Text) : Text :=
  mark :: (Utf8.chunks t).flatMap (quoteChunk mark) ++ [mark]

/-- `t` between double quotes. -/
def quoted (t : Text) : Text :=
  quoteWith Byte.quote t

/-- A byte, read as the number of a character, between single quotes. -/
def quotedByte (b : UInt8) : Text :=
  quoteWith Byte.apostrophe (Utf8.encode b.toNat)

end Text
end CPreprocessor

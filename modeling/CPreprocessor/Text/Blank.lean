import CPreprocessor.Text.Utf8

/-!
White space characters and trimming. The set is that of Unicode, so it holds the
no-break space and the ideographic space as well as the ASCII ones.
-/

namespace CPreprocessor

/-- Whether the character with number `n` is white space. -/
def isWhiteSpace (n : Nat) : Bool :=
  (0x09 ≤ n && n ≤ 0x0d) || n == 0x20 || n == 0x85 || n == 0xa0 || n == 0x1680
    || (0x2000 ≤ n && n ≤ 0x200a) || n == 0x2028 || n == 0x2029 || n == 0x202f
    || n == 0x205f || n == 0x3000

namespace Utf8.Chunk

def isWhiteSpace : Utf8.Chunk → Bool
  | .char n _ => CPreprocessor.isWhiteSpace n
  | .byte _ => false

end Utf8.Chunk

namespace Text

/-- Drops white space from the front. -/
def trimLeft (t : Text) : Text :=
  ((Utf8.chunks t).dropWhile Utf8.Chunk.isWhiteSpace).flatMap Utf8.Chunk.spelling

/-- Drops white space from both ends. -/
def trim (t : Text) : Text :=
  ((((Utf8.chunks t).dropWhile Utf8.Chunk.isWhiteSpace).reverse.dropWhile
    Utf8.Chunk.isWhiteSpace).reverse).flatMap Utf8.Chunk.spelling

end Text
end CPreprocessor

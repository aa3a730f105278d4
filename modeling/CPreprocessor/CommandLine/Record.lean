import CPreprocessor.Token

/-!
Token records: a token as a JSON object on a line of its own. Strings are escaped so that
they can stand in a web page.
-/

namespace CPreprocessor
namespace Record

/-- A character by its number, for the characters below `0x10000`. -/
def numbered (n : Nat) : Text :=
  ascii "\\u" ++ Text.hexadecimal 4 n

/-- The characters that stand for themselves neither in a string nor in a web page. -/
def isSpecial (n : Nat) : Bool :=
  n < 0x20 || n == '<'.toNat || n == '>'.toNat || n == '&'.toNat || n == 0x2028 || n == 0x2029

/-- A character or stray byte inside a string. -/
def escaped : Utf8.Chunk → Text
  | .byte _ => numbered Utf8.replacement
  | .char n spelling =>
    if n = Byte.quote.toNat ∨ n = Byte.backslash.toNat then Byte.backslash :: spelling
    else if n = Byte.lineFeed.toNat then ascii "\\n"
    else if n = Byte.carriageReturn.toNat then ascii "\\r"
    else if n = Byte.tab.toNat then ascii "\\t"
    else if isSpecial n then numbered n
    else spelling

def string (t : Text) : Text :=
  Byte.quote :: (Utf8.chunks t).flatMap escaped ++ [Byte.quote]

/-- An object with the values of its members already written. -/
def object (members : List (Text × Text)) : Text :=
  ascii "\x7b" ++ (ascii ",").intercalate (members.map fun (k, v) => string k ++ ascii ":" ++ v)
    ++ ascii "\x7d"

def position (p : Pos) : Text :=
  object [(ascii "offset", Text.signedDecimal p.offset), (ascii "line", Text.signedDecimal p.line),
    (ascii "col", Text.signedDecimal p.col)]

/-- The line for a token of a file. The last member is there for line ends only. -/
def line (file : Text) (t : Token) : Text :=
  object ([(ascii "file", string file), (ascii "kind", string t.kind.name),
      (ascii "text", string t.text), (ascii "pos", position t.pos),
      (ascii "len", Text.signedDecimal t.length)]
    ++ if t.newline then [(ascii "newline", ascii "true")] else []) ++ [Byte.lineFeed]

end Record
end CPreprocessor

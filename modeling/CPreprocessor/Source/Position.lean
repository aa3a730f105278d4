import CPreprocessor.Text.Decimal

/-!
Positions in a source text. A line ends after a line feed, or after a carriage return
that no line feed follows, so that CR LF counts once.
-/

namespace CPreprocessor

/-- A place in a source: the bytes before it, its line and its byte column, both counted
from one. A token that was not read from a source can be given any integers; it has a place
if its line is positive. -/
structure Pos where
  offset : Int := 0
  line : Int := 0
  col : Int := 0
deriving DecidableEq, Repr, Inhabited

namespace Pos

/-- Where a source begins. -/
def start : Pos :=
  ⟨0, 1, 1⟩

/-- Whether the position refers to source text. -/
def isValid (p : Pos) : Bool :=
  0 < p.line

/-- The next byte on the same line. -/
def right (p : Pos) : Pos :=
  { p with offset := p.offset + 1, col := p.col + 1 }

/-- The first byte of the next line. -/
def newLine (p : Pos) : Pos :=
  ⟨p.offset + 1, p.line + 1, 1⟩

/-- Whether a line ends with `b` when `rest` follows. -/
def endsLine (b : UInt8) (rest : Text) : Bool :=
  b == Byte.lineFeed || (b == Byte.carriageReturn && rest.head? != some Byte.lineFeed)

/-- The position after the byte `b` at `p` when `rest` follows it. -/
def after (p : Pos) (b : UInt8) (rest : Text) : Pos :=
  if endsLine b rest then p.newLine else p.right

/-- The position after the whole of a text that starts at `p`. -/
def atEnd (p : Pos) : Text → Pos
  | [] => p
  | b :: t => atEnd (p.after b t) t

/-- Line and column, or a dash if the line is not positive. -/
def text (p : Pos) : Text :=
  if 0 < p.line then Text.signedDecimal p.line ++ ascii ":" ++ Text.signedDecimal p.col
  else ascii "-"

end Pos
end CPreprocessor

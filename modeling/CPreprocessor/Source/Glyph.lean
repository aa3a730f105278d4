import CPreprocessor.Source.Position

/-!
Glyphs are the bytes a scanner sees: a backslash directly before a line end joins two
lines and is no glyph. Each glyph remembers the line joins behind it, so the source can
be read back verbatim and every position refers to the source as written.
-/

namespace CPreprocessor

/-- A byte of the source, its position and the line joins that directly follow it. -/
structure Glyph where
  byte : UInt8
  pos : Pos
  splices : Text := []
deriving DecidableEq, Repr, Inhabited

namespace Glyph

/-- The source bytes the glyph stands for. -/
def source (g : Glyph) : Text :=
  g.byte :: g.splices

/-- The number of source bytes the glyph stands for. -/
def length (g : Glyph) : Nat :=
  1 + g.splices.length

/-- The line joins at the front of a text that starts at `p`, and the glyphs after them. -/
def spliced (p : Pos) : Text → Text × List Glyph
  | [] => ([], [])
  | Byte.backslash :: Byte.carriageReturn :: Byte.lineFeed :: t =>
    let (lead, gs) := spliced (p.right.right.newLine) t
    (Byte.backslash :: Byte.carriageReturn :: Byte.lineFeed :: lead, gs)
  | Byte.backslash :: Byte.lineFeed :: t =>
    let (lead, gs) := spliced (p.right.newLine) t
    (Byte.backslash :: Byte.lineFeed :: lead, gs)
  | Byte.backslash :: Byte.carriageReturn :: t =>
    let (lead, gs) := spliced (p.right.newLine) t
    (Byte.backslash :: Byte.carriageReturn :: lead, gs)
  | b :: t =>
    let (lead, gs) := spliced (p.after b t) t
    ([], ⟨b, p, lead⟩ :: gs)

/-- One glyph per byte: the reading in which no line is joined. -/
def plain (p : Pos) : Text → List Glyph
  | [] => []
  | b :: t => ⟨b, p, []⟩ :: plain (p.after b t) t

/-- The bytes of the glyphs, line joins removed. -/
def spelling (gs : List Glyph) : Text :=
  gs.map byte

/-- The number of source bytes the glyphs stand for. -/
def totalLength : List Glyph → Nat
  | [] => 0
  | g :: gs => g.length + totalLength gs

/-- The source bytes from the first glyph through the byte of the last one. -/
def verbatim : List Glyph → Text
  | [] => []
  | [g] => [g.byte]
  | g :: gs => g.source ++ verbatim gs

end Glyph
end CPreprocessor

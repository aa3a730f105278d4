import CPreprocessor.Lexer.Lexeme
import CPreprocessor.TokenStream.Buffered

/-!
The lexer: a source that turns glyphs into tokens. A strict lexer fails at malformed
literals; a tolerant one, used on text that is skipped, goes on behind them.
-/

namespace CPreprocessor

/-- The glyphs still to be scanned, where the source ends, and the mode. -/
structure Lexer where
  rest : List Glyph
  stop : Pos
  tolerant : Bool := false

namespace Lexer

/-- A lexer at the beginning of a text. Line joins in front of the first token are dropped. -/
def ofText (src : Text) : Lexer :=
  { rest := (Glyph.spliced .start src).2, stop := Pos.start.atEnd src }

/-- A lexer that joins no lines. -/
def ofUnsplicedText (src : Text) : Lexer :=
  { rest := Glyph.plain .start src, stop := Pos.start.atEnd src }

/-- The token a lexeme becomes at its place. -/
def place (pos : Pos) (x : Lexeme) : Token :=
  { kind := x.kind, text := x.text, pos, length := Glyph.totalLength x.cut.taken,
    newline := x.newline }

def pull (l : Lexer) : Pull Lexer :=
  match l.rest with
  | [] => .stop .eof l
  | g :: gs =>
    match lexeme l.tolerant l.stop g gs with
    | .ok x => .token (place g.pos x) { l with rest := x.cut.rest }
    | .error e => .stop (.fault e) l

theorem rest_lt_of_pull {l l' : Lexer} {t : Token} (h : l.pull = .token t l') :
    l'.rest.length < l.rest.length := by
  unfold pull at h
  split at h
  · contradiction
  · rename_i g gs hr
    split at h
    · rename_i x hx
      cases h
      simpa [hr] using (cuts_lexeme hx).rest_lt
    · contradiction

instance : Source Lexer where
  pull := pull
  wf := wellFounded_pull pull (fun l => l.rest.length) fun _ _ _ => rest_lt_of_pull

end Lexer

/-- The tokens of a text, up to the first error. -/
def tokenize (src : Text) : Output :=
  (TokenStream.drain (Buffered.ofSource (Lexer.ofText src))).1

end CPreprocessor

import CPreprocessor.Lexer.Literal
import CPreprocessor.Lexer.Number
import CPreprocessor.Lexer.Space

/-!
The first lexeme of a glyph sequence. White space goes first; otherwise the first glyph
decides which scanner applies, with a look at the next one for numbers and literals.
-/

namespace CPreprocessor

/-- A scanned token before it is placed: what it is, its text, and the cut. -/
structure Lexeme where
  kind : Kind
  text : Text
  newline : Bool := false
  cut : Cut

namespace Lexer

/-- A lexeme spelled by the glyphs it takes. -/
def spelledLexeme (kind : Kind) (c : Cut) : Lexeme :=
  { kind, text := Glyph.spelling c.taken, cut := c }

/-- A string or character literal after its encoding letters, from its opening quote `q`.
A tolerant scan keeps an unclosed literal as text of no kind. -/
def quotedLexeme (tolerant : Bool) (start stop : Pos) (kind : Kind) (letters : List Glyph)
    (q : Glyph) (gs : List Glyph) : Except Error Lexeme :=
  match literalTail tolerant stop q.byte gs with
  | .closed c => .ok (spelledLexeme kind (c.prepend (letters ++ [q])))
  | .unclosed c =>
    if tolerant then .ok (spelledLexeme .invalid (c.prepend (letters ++ [q])))
    else .error { fault := .unclosedLiteral q.byte, pos := start }
  | .broken e => .error e

/-- An identifier. -/
def identLexeme (gs : List Glyph) : Lexeme :=
  spelledLexeme .identifier (Cut.spanning Byte.isIdent gs)

/-- A lexeme that starts with an encoding letter: a literal if a quote follows the letters,
an identifier otherwise. -/
def encodedLexeme (tolerant : Bool) (stop : Pos) (g : Glyph) (gs : List Glyph) :
    Except Error Lexeme :=
  let (letters, raw) := encoding g gs
  match letters.rest with
  | q :: t =>
    if q.byte = Byte.quote then
      if raw then
        (rawString g.pos q t).map fun c =>
          { kind := .string
            text := Glyph.spelling letters.taken ++ Glyph.verbatim c.taken
            cut := c.prepend letters.taken }
      else quotedLexeme tolerant g.pos stop .string letters.taken q t
    else if q.byte = Byte.apostrophe ∧ raw = false then
      quotedLexeme tolerant g.pos stop .character letters.taken q t
    else .ok (identLexeme (g :: gs))
  | [] => .ok (identLexeme (g :: gs))

/-- The bytes of the glyphs up to the first line join, that glyph included. -/
def unbroken : List Glyph → Text
  | [] => []
  | g :: gs => if g.splices = [] then g.byte :: unbroken gs else [g.byte]

/-- A character outside ASCII, or a byte that starts none. -/
def wideLexeme (g : Glyph) (gs : List Glyph) : Lexeme :=
  let bytes := unbroken ((g :: gs).take 4)
  match Utf8.decode bytes with
  | some (_, rest) =>
    let width := bytes.length - rest.length
    spelledLexeme .punctuator ⟨(g :: gs).take width, (g :: gs).drop width⟩
  | none => spelledLexeme .invalid ⟨[g], gs⟩

/-- The longest punctuator of the vocabulary, or a single byte. -/
def punctLexeme (g : Glyph) (gs : List Glyph) : Lexeme :=
  match Vocabulary.punctuators.findSome? fun p => Cut.spelled p (g :: gs) with
  | some c => spelledLexeme .punctuator c
  | none => spelledLexeme .punctuator ⟨[g], gs⟩

/-- The lexeme after possible white space, of which there is none. -/
def solidLexeme (tolerant : Bool) (stop : Pos) (g : Glyph) (gs : List Glyph) :
    Except Error Lexeme :=
  if startsNumber (g :: gs) then (number stop g gs).map (spelledLexeme .number)
  else if (ascii "uULR").contains g.byte then encodedLexeme tolerant stop g gs
  else if g.byte = Byte.quote then quotedLexeme tolerant g.pos stop .string [] g gs
  else if g.byte = Byte.apostrophe then quotedLexeme tolerant g.pos stop .character [] g gs
  else if Byte.isIdentStart g.byte then .ok (identLexeme (g :: gs))
  else if 0x80 ≤ g.byte then .ok (wideLexeme g gs)
  else .ok (punctLexeme g gs)

/-- The first lexeme of the glyphs `g :: gs`. -/
def lexeme (tolerant : Bool) (stop : Pos) (g : Glyph) (gs : List Glyph) : Except Error Lexeme :=
  match space (g :: gs) with
  | none => .error { fault := .unterminatedComment, pos := g.pos }
  | some s =>
    if s.text = [] then solidLexeme tolerant stop g gs
    else .ok { kind := .whitespace, text := s.text, newline := s.newline, cut := s.cut }

/-- A lexeme takes a beginning of the glyphs, and not an empty one. -/
structure Cuts (x : Lexeme) (gs : List Glyph) : Prop where
  whole : x.cut.whole = gs
  taken_ne_nil : x.cut.taken ≠ []

theorem Cuts.rest_lt {x : Lexeme} {gs : List Glyph} (h : Cuts x gs) :
    x.cut.rest.length < gs.length := by
  have hl := congrArg List.length h.whole
  rw [Cut.length_whole] at hl
  have := List.length_pos_iff.2 h.taken_ne_nil
  omega

theorem cuts_quotedLexeme {tolerant : Bool} {start stop : Pos} {kind : Kind}
    {letters : List Glyph} {q : Glyph} {gs : List Glyph} {x : Lexeme}
    (h : quotedLexeme tolerant start stop kind letters q gs = .ok x) :
    Cuts x (letters ++ q :: gs) := by
  unfold quotedLexeme at h
  split at h
  · rename_i c hc
    cases h
    have := whole_of_literalTail (c := c) (by rw [hc]; rfl)
    exact ⟨by simp [spelledLexeme, this], by simp [spelledLexeme]⟩
  · rename_i c hc
    split at h
    · cases h
      have := whole_of_literalTail (c := c) (by rw [hc]; rfl)
      exact ⟨by simp [spelledLexeme, this], by simp [spelledLexeme]⟩
    · contradiction
  · contradiction

theorem cuts_identLexeme {g : Glyph} {gs : List Glyph} (h : Byte.isIdent g.byte) :
    Cuts (identLexeme (g :: gs)) (g :: gs) :=
  ⟨by simp [identLexeme, spelledLexeme],
    by simp [identLexeme, spelledLexeme, Cut.spanning, h]⟩

theorem cuts_encodedLexeme {tolerant : Bool} {stop : Pos} {g : Glyph} {gs : List Glyph}
    {x : Lexeme} (hg : Byte.isIdent g.byte) (h : encodedLexeme tolerant stop g gs = .ok x) :
    Cuts x (g :: gs) := by
  unfold encodedLexeme at h
  have hw := whole_encoding g gs
  have hn := taken_encoding_ne_nil g gs
  rcases he : encoding g gs with ⟨letters, raw⟩
  simp only [he] at h hw hn
  split at h
  · rename_i q t ht
    have hw' : letters.taken ++ q :: t = g :: gs := by rw [← hw, Cut.whole, ht]
    split at h
    · split at h
      · obtain ⟨c, hc, rfl⟩ := except_map_eq_ok h
        have := whole_of_rawString hc
        exact ⟨by simp [this, hw'], by simp [hn]⟩
      · rw [← hw']; exact cuts_quotedLexeme h
    · split at h
      · rw [← hw']; exact cuts_quotedLexeme h
      · cases h; exact cuts_identLexeme hg
  · cases h; exact cuts_identLexeme hg

theorem cuts_wideLexeme (g : Glyph) (gs : List Glyph) : Cuts (wideLexeme g gs) (g :: gs) := by
  unfold wideLexeme
  simp only
  split
  · rename_i n rest hd
    have := Utf8.length_lt_of_decode hd
    obtain ⟨k, hk⟩ := Nat.exists_eq_add_of_lt this
    refine ⟨by simp [spelledLexeme], ?_⟩
    rw [hk, show rest.length + k + 1 - rest.length = k + 1 by omega]
    simp [spelledLexeme]
  · exact ⟨rfl, by simp [spelledLexeme]⟩

theorem cuts_punctLexeme (g : Glyph) (gs : List Glyph) : Cuts (punctLexeme g gs) (g :: gs) := by
  unfold punctLexeme
  split
  · rename_i c hc
    obtain ⟨p, hp, hs⟩ := List.exists_of_findSome?_eq_some hc
    refine ⟨Cut.whole_of_spelled hs, ?_⟩
    have hl := Cut.length_taken_of_spelled hs
    have hall : (Vocabulary.punctuators.all fun q => q != []) = true := by decide
    have hne : p ≠ [] := by simpa using List.all_eq_true.1 hall p hp
    intro hn
    change c.taken = [] at hn
    rw [hn, List.length_nil] at hl
    exact hne (List.length_eq_zero_iff.1 hl.symm)
  · exact ⟨rfl, by simp [spelledLexeme]⟩

theorem cuts_lexeme {tolerant : Bool} {stop : Pos} {g : Glyph} {gs : List Glyph} {x : Lexeme}
    (h : lexeme tolerant stop g gs = .ok x) : Cuts x (g :: gs) := by
  unfold lexeme at h
  split at h
  · contradiction
  · rename_i s hs
    split at h
    · unfold solidLexeme at h
      repeat' split at h
      · obtain ⟨c, hc, rfl⟩ := except_map_eq_ok h
        have := whole_of_number hc
        exact ⟨this.1, this.2⟩
      · refine cuts_encodedLexeme ?_ h
        rename_i hu
        simp only [ascii, List.contains_eq_mem, decide_eq_true_eq] at hu
        rcases List.mem_map.1 hu with ⟨c, hc, hb⟩
        have hall : ("uULR".toList.all fun c => Byte.isIdent c.toUInt8) = true := by decide
        exact hb ▸ List.all_eq_true.1 hall c hc
      · exact cuts_quotedLexeme h
      · exact cuts_quotedLexeme h
      · cases h
        exact cuts_identLexeme (by simp_all [Byte.isIdent])
      · cases h; exact cuts_wideLexeme g gs
      · cases h; exact cuts_punctLexeme g gs
    · rename_i ht
      cases h
      exact ⟨whole_of_space hs, taken_ne_nil_of_space hs ht⟩

end Lexer
end CPreprocessor

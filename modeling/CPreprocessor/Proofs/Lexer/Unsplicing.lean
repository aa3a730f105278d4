import CPreprocessor.Proofs.Lexer.Tokens
import CPreprocessor.Proofs.Lexer.Tiling
import CPreprocessor.Proofs.Source.Unsplicing

/-!
Joining lines is a phase of its own. Apart from raw strings and characters outside ASCII the
scanners look at the bytes of glyphs and at nothing else, so each commutes with taking places
and line joins away; a text is therefore scanned as the text without its line joins is scanned
by a lexer that joins none.
-/

namespace CPreprocessor

/-- The glyph of the same byte, without place and line joins. -/
def Glyph.bare (g : Glyph) : Glyph :=
  { byte := g.byte, pos := {} }

@[simp] theorem Glyph.byte_bare (g : Glyph) : g.bare.byte = g.byte :=
  rfl

@[simp] theorem Glyph.pos_bare (g : Glyph) : g.bare.pos = {} :=
  rfl

/-- The error without its place. -/
def Error.unplaced (e : Error) : Error :=
  { e with pos := {} }

/-- An outcome with its result changed and its error without its place. -/
def Error.unplacing {α β : Type} (f : α → β) : Except Error α → Except Error β
  | .ok a => .ok (f a)
  | .error e => .error e.unplaced

open Glyph (bare)
open Error (unplacing)

def Cut.bare (c : Cut) : Cut :=
  ⟨c.taken.map Glyph.bare, c.rest.map Glyph.bare⟩

@[simp] theorem Cut.bare_mk (us vs : List Glyph) :
    Cut.bare ⟨us, vs⟩ = ⟨us.map Glyph.bare, vs.map Glyph.bare⟩ :=
  rfl

@[simp] theorem Cut.bare_prepend (gs : List Glyph) (c : Cut) :
    (c.prepend gs).bare = c.bare.prepend (gs.map Glyph.bare) := by
  simp [Cut.bare, Cut.prepend]

theorem Cut.map_bare_prepend (gs : List Glyph) (o : Option Cut) :
    (o.map (Cut.prepend gs)).map Cut.bare =
      (o.map Cut.bare).map (Cut.prepend (gs.map Glyph.bare)) := by
  cases o <;> simp

theorem Cut.spanning_bare (p : UInt8 → Bool) (gs : List Glyph) :
    Cut.spanning p (gs.map Glyph.bare) = (Cut.spanning p gs).bare := by
  induction gs with
  | nil => rfl
  | cons g gs ih =>
      simp only [List.map_cons, Cut.spanning, Glyph.byte_bare, ih]
      split <;> simp

theorem Cut.spelled_bare (t : Text) (gs : List Glyph) :
    Cut.spelled t (gs.map Glyph.bare) = (Cut.spelled t gs).map Cut.bare := by
  fun_induction Cut.spelled t gs with
  | case1 gs => rfl
  | case2 b t => rfl
  | case3 t g gs ih =>
      simp only [List.map_cons, Cut.spelled, Glyph.byte_bare, if_true, ih, Cut.map_bare_prepend,
        List.map_nil]
  | case4 b t g gs hg => simp [Cut.spelled, hg]

namespace Lexer

def Closing.bare : Closing → Closing
  | closed c => closed c.bare
  | unclosed c => unclosed c.bare
  | broken e => broken e.unplaced

@[simp] theorem Closing.bare_prepend (gs : List Glyph) (q : Closing) :
    (q.prepend gs).bare = q.bare.prepend (gs.map Glyph.bare) := by
  cases q <;> simp [Closing.bare, Closing.prepend]

theorem missingHex_bare (stop : Pos) (n : Nat) (gs : List Glyph) :
    missingHex {} n (gs.map bare) = (missingHex stop n gs).map fun _ => {} := by
  fun_induction missingHex stop n gs with
  | case1 gs => rfl
  | case2 n => rfl
  | case3 n g gs hg ih => simp [missingHex, hg, ih]
  | case4 n g gs hg => simp [missingHex, hg]

theorem escapeError_bare (stop : Pos) (g : Glyph) (gs : List Glyph) :
    escapeError {} g.bare (gs.map bare) = (escapeError stop g gs).map Error.unplaced := by
  simp only [escapeError, Glyph.byte_bare, missingHex_bare stop, Glyph.pos_bare]
  repeat' split
  all_goals simp [Function.comp_def, Error.unplaced]

theorem literalTail_bare (tolerant : Bool) (stop : Pos) (mark : UInt8) (gs : List Glyph) :
    literalTail tolerant {} mark (gs.map bare) = (literalTail tolerant stop mark gs).bare := by
  fun_induction literalTail tolerant stop mark gs with
  | case1 => rfl
  | case2 g hm => simp [literalTail, hm, Closing.bare]
  | case3 g hm hb => simp [literalTail, hm, hb, Closing.bare]
  | case4 g hm hb => simp [literalTail, hm, hb, Closing.bare]
  | case5 g h gs hm => simp [literalTail, hm, Closing.bare]
  | case6 g h gs hm hb => simp [literalTail, hm, hb, Closing.bare]
  | case7 g h gs hm hb hs he ih => simp_all [literalTail]
  | case8 g h gs hm hb hs he e hx ht ih => simp_all [literalTail, escapeError_bare stop]
  | case9 g h gs hm hb hs he e hx ht => simp_all [literalTail, escapeError_bare stop, Closing.bare]
  | case10 g h gs hm hb hs he hx ih => simp_all [literalTail, escapeError_bare stop]
  | case11 g h gs hm hb hs ih => simp_all [literalTail]

theorem charset_bare (g : Glyph) (gs : List Glyph) :
    charset g.bare (gs.map bare) = (charset g gs).bare := by
  cases gs with
  | nil => rfl
  | cons h gs =>
      by_cases hb : g.byte = 'u'.toUInt8 ∧ h.byte = '8'.toUInt8 <;> simp [charset, hb]

theorem encoding_bare (g : Glyph) (gs : List Glyph) :
    encoding g.bare (gs.map bare) = ((encoding g gs).1.bare, (encoding g gs).2) := by
  simp only [encoding, Glyph.byte_bare, charset_bare, Cut.bare]
  split
  · rfl
  · cases hr : (charset g gs).rest with
    | nil => simp [hr]
    | cons r t =>
        simp only [List.map_cons, Glyph.byte_bare]
        split <;> simp [hr]

theorem unplacing_prepend (gs : List Glyph) (x : Except Error Cut) :
    unplacing Cut.bare (x.map (Cut.prepend gs)) =
      (unplacing Cut.bare x).map (Cut.prepend (gs.map bare)) := by
  cases x with
  | ok c => exact congrArg Except.ok (Cut.bare_prepend gs c)
  | error e => rfl

theorem numberTail_bare (stop : Pos) (gs : List Glyph) :
    numberTail {} (gs.map bare) = unplacing Cut.bare (numberTail stop gs) := by
  fun_induction numberTail stop gs with
  | case1 => rfl
  | case2 g hg | case3 g hg ha | case4 g hg ha => simp_all [numberTail, unplacing, Error.unplaced]
  | case5 g h gs hg ih => simp_all [numberTail, unplacing_prepend]
  | case6 g h gs hg hi ih => simp_all [numberTail, unplacing_prepend]
  | case7 g h gs hg hi ha hb ih => simp_all [numberTail, unplacing_prepend]
  | case8 g h gs hg hi ha hb => simp_all [numberTail, unplacing, Error.unplaced]
  | case9 g h gs hg hi ha => simp_all [numberTail, unplacing]

theorem startsNumber_bare (gs : List Glyph) : startsNumber (gs.map bare) = startsNumber gs := by
  fun_cases startsNumber gs <;> rfl

theorem blockComment_bare (gs : List Glyph) :
    blockComment (gs.map bare) = (blockComment gs).map Cut.bare := by
  fun_induction blockComment gs with
  | case1 => rfl
  | case2 g => rfl
  | case3 g h gs hb => simp [blockComment, hb]
  | case4 g h gs hb ih =>
      rw [List.map_cons] at ih
      simp only [List.map_cons, blockComment, Glyph.byte_bare, hb, if_false, ih,
        Cut.map_bare_prepend, List.map_nil]

def Comment.bare : Comment → Comment
  | absent => absent
  | unterminated => unterminated
  | found c => found c.bare

theorem comment_bare (gs : List Glyph) : comment (gs.map bare) = (comment gs).bare := by
  fun_cases comment gs with
  | case1 g h gs hb c hc => simp [comment, hb, blockComment_bare, hc, Comment.bare]
  | case2 g h gs hb hc => simp [comment, hb, blockComment_bare, hc, Comment.bare]
  | case3 g h gs hb hl =>
      rw [List.map_cons, List.map_cons, comment, Glyph.byte_bare, Glyph.byte_bare, if_neg hb,
        if_pos hl, Cut.spanning_bare, Comment.bare, Cut.bare_prepend]
      rfl
  | case4 g h gs hb hl =>
      simp only [List.map_cons, comment, Glyph.byte_bare, hb, hl, if_false, Comment.bare]
  | case5 gs hn =>
      rcases gs with _ | ⟨g, _ | ⟨h, gs⟩⟩
      · rfl
      · rfl
      · exact absurd rfl (hn g h gs)

def Space.bare (s : Space) : Space :=
  { s with cut := s.cut.bare }

theorem Space.map_bare_prepend (text : Text) (newline : Bool) (gs : List Glyph)
    (o : Option Space) :
    (o.map (Space.prepend text newline gs)).map Space.bare =
      (o.map Space.bare).map (Space.prepend text newline (gs.map Glyph.bare)) := by
  cases o <;> simp [Space.bare, Space.prepend]

theorem space_bare (gs : List Glyph) : space (gs.map bare) = (space gs).map Space.bare := by
  fun_induction space gs with
  | case1 =>
      rw [List.map_nil, space]
      rfl
  | case2 g t hg ih =>
      rw [List.map_cons, space, Glyph.byte_bare, if_pos hg, ih, Space.map_bare_prepend]
      rfl
  | case3 g t hl hg ih =>
      rw [List.map_cons, space, Glyph.byte_bare, if_neg hl, if_pos hg, ih, Space.map_bare_prepend]
      rfl
  | case4 g t hl hg hc =>
      have hc' := comment_bare (g :: t)
      rw [hc] at hc'
      rw [List.map_cons, space_of_absent (g := g.bare) hl hg hc']
      rfl
  | case5 g t hl hg hc =>
      have hc' := comment_bare (g :: t)
      rw [hc] at hc'
      rw [List.map_cons, space_of_unterminated (g := g.bare) hl hg hc']
      rfl
  | case6 g t hl hg c hc ih =>
      have hc' := comment_bare (g :: t)
      rw [hc] at hc'
      rw [List.map_cons, space_of_found (g := g.bare) hl hg hc', Space.map_bare_prepend, ← ih]
      rfl

def bareLexeme (x : Lexeme) : Lexeme :=
  { x with cut := x.cut.bare }

theorem spelling_bare (gs : List Glyph) : Glyph.spelling (gs.map bare) = Glyph.spelling gs := by
  rw [Glyph.spelling, List.map_map]
  rfl

theorem spelledLexeme_bare (kind : Kind) (c : Cut) :
    spelledLexeme kind c.bare = bareLexeme (spelledLexeme kind c) := by
  rw [spelledLexeme, show c.bare.taken = c.taken.map bare from rfl, spelling_bare]
  rfl

theorem quotedLexeme_bare (tolerant : Bool) (start stop : Pos) (kind : Kind)
    (letters : List Glyph) (q : Glyph) (gs : List Glyph) :
    quotedLexeme tolerant {} {} kind (letters.map bare) q.bare (gs.map bare) =
      unplacing bareLexeme (quotedLexeme tolerant start stop kind letters q gs) := by
  rw [quotedLexeme, quotedLexeme, Glyph.byte_bare, literalTail_bare tolerant stop]
  have hp (c : Cut) : c.bare.prepend (letters.map bare ++ [q.bare]) =
      (c.prepend (letters ++ [q])).bare := by simp
  cases literalTail tolerant stop q.byte gs with
  | closed c =>
      simp only [Closing.bare, unplacing, hp, spelledLexeme_bare]
  | unclosed c =>
      simp only [Closing.bare, hp, spelledLexeme_bare]
      split <;> rfl
  | broken e => rfl

theorem identLexeme_bare (gs : List Glyph) :
    identLexeme (gs.map bare) = bareLexeme (identLexeme gs) := by
  rw [identLexeme, Cut.spanning_bare, spelledLexeme_bare, identLexeme]

/-- Encoding letters that make a string raw end in `R`. -/
theorem ends_of_encoding {g : Glyph} {gs : List Glyph} (h : (encoding g gs).2 = true) :
    ∃ ls r, (encoding g gs).1.taken = ls ++ [r] ∧ r.byte = 'R'.toUInt8 := by
  unfold encoding at h ⊢
  split
  · rename_i hg
    exact ⟨[], g, rfl, hg⟩
  · rename_i hg
    rw [if_neg hg] at h
    cases hr : (charset g gs).rest with
    | nil =>
        simp only [hr] at h
        cases h
    | cons r t =>
        simp only [hr] at h ⊢
        split at h
        · rename_i hR
          rw [if_pos hR]
          exact ⟨_, r, rfl, hR⟩
        · cases h

/-- A letter `R` in front of a quote. -/
def rawMark : Text :=
  ascii "R\""

/-- Where the encoding letters make no string raw, a lexeme depends on the bytes only. -/
theorem encodedLexeme_bare (tolerant : Bool) (stop : Pos) (g : Glyph) (gs : List Glyph)
    (hr : ¬rawMark <:+: Glyph.spelling (g :: gs)) :
    encodedLexeme tolerant {} g.bare (gs.map bare) =
      unplacing bareLexeme (encodedLexeme tolerant stop g gs) := by
  have hi := identLexeme_bare (g :: gs)
  have hw := whole_encoding g gs
  have he := @ends_of_encoding g gs
  rw [List.map_cons] at hi
  unfold encodedLexeme
  rw [encoding_bare, hi]
  rcases hx : encoding g gs with ⟨letters, raw⟩
  simp only [hx] at hw he ⊢
  rw [show letters.bare.rest = letters.rest.map bare from rfl]
  cases ht : letters.rest with
  | nil => rfl
  | cons q t =>
      simp only [List.map_cons]
      have hq := quotedLexeme_bare tolerant g.pos stop
      by_cases hb : q.byte = Byte.quote
      · have hraw : raw = false := by
          rw [Bool.eq_false_iff]
          intro hraw
          obtain ⟨ls, r, hls, hR⟩ := he hraw
          refine hr ⟨Glyph.spelling ls, Glyph.spelling t, ?_⟩
          rw [← hw, Cut.whole, hls, ht, Glyph.spelling_append, Glyph.spelling_append,
            Glyph.spelling_cons, Glyph.spelling_cons, hR, hb, List.append_assoc, List.append_assoc]
          rfl
        subst hraw
        rw [if_pos (show q.bare.byte = _ from hb), if_pos hb, if_neg Bool.false_ne_true,
          if_neg Bool.false_ne_true]
        exact hq .string letters.taken q t
      · rw [if_neg (show ¬q.bare.byte = _ from hb), if_neg hb]
        by_cases ha : q.byte = Byte.apostrophe ∧ raw = false
        · rw [if_pos (show q.bare.byte = _ ∧ _ from ha), if_pos ha]
          exact hq .character letters.taken q t
        · rw [if_neg (show ¬(q.bare.byte = _ ∧ _) from ha), if_neg ha]
          rfl

theorem punctLexeme_bare (g : Glyph) (gs : List Glyph) :
    punctLexeme g.bare (gs.map bare) = bareLexeme (punctLexeme g gs) := by
  have hf (ps : List Text) : (ps.findSome? fun p => Cut.spelled p (g.bare :: gs.map bare)) =
      (ps.findSome? fun p => Cut.spelled p (g :: gs)).map Cut.bare := by
    induction ps with
    | nil => rfl
    | cons p ps ih =>
        have hp := Cut.spelled_bare p (g :: gs)
        rw [List.map_cons] at hp
        rw [List.findSome?_cons, List.findSome?_cons, hp, ih]
        cases Cut.spelled p (g :: gs) <;> rfl
  rw [punctLexeme, punctLexeme, hf]
  cases Vocabulary.punctuators.findSome? fun p => Cut.spelled p (g :: gs) with
  | none => exact spelledLexeme_bare .punctuator ⟨[g], gs⟩
  | some c => exact spelledLexeme_bare .punctuator c

theorem solidLexeme_bare (tolerant : Bool) (stop : Pos) (g : Glyph) (gs : List Glyph)
    (hg : g.byte < 0x80) (hr : ¬rawMark <:+: Glyph.spelling (g :: gs)) :
    solidLexeme tolerant {} g.bare (gs.map bare) =
      unplacing bareLexeme (solidLexeme tolerant stop g gs) := by
  have hn := startsNumber_bare (g :: gs)
  have hi := identLexeme_bare (g :: gs)
  rw [List.map_cons] at hn hi
  unfold solidLexeme
  rw [hn, Glyph.byte_bare]
  split
  · rw [number, number, numberTail_bare stop]
    cases numberTail stop gs with
    | error e => rfl
    | ok c => exact congrArg Except.ok (spelledLexeme_bare .number (c.prepend [g]))
  · split
    · exact encodedLexeme_bare tolerant stop g gs hr
    · split
      · exact quotedLexeme_bare tolerant g.pos stop .string [] g gs
      · split
        · exact quotedLexeme_bare tolerant g.pos stop .character [] g gs
        · split
          · rw [hi]
            rfl
          · rw [if_neg (UInt8.not_le.2 hg), if_neg (UInt8.not_le.2 hg), punctLexeme_bare]
            rfl

/-- Of ASCII bytes without a raw string, the first lexeme depends on the bytes only. -/
theorem lexeme_bare (tolerant : Bool) (stop : Pos) (g : Glyph) (gs : List Glyph)
    (hg : g.byte < 0x80) (hr : ¬rawMark <:+: Glyph.spelling (g :: gs)) :
    lexeme tolerant {} g.bare (gs.map bare) =
      unplacing bareLexeme (lexeme tolerant stop g gs) := by
  have hs := space_bare (g :: gs)
  rw [List.map_cons] at hs
  rw [lexeme, lexeme, hs]
  cases space (g :: gs) with
  | none => rfl
  | some s =>
      simp only [Option.map_some]
      rw [show s.bare.text = s.text from rfl, solidLexeme_bare tolerant stop g gs hg hr]
      split <;> rfl

end Lexer

/-- What a token is apart from its place: its kind, its text and whether it ends a line. -/
def Token.reading (t : Token) : Kind × Text × Bool :=
  (t.kind, t.text, t.newline)

/-- What an output says apart from places: its tokens, and the fault it ends with. -/
def Output.readings (out : Output) : List (Kind × Text × Bool) × Option Fault :=
  (out.tokens.map Token.reading, out.error.map Error.fault)

/-- The tokens and the end of a source, taken together. -/
def outputOf (c : List Token × End) : Output :=
  ⟨c.1, c.2.error?⟩

namespace Lexer

/-- A scan of ASCII bytes without a raw string says the same of the bare glyphs. -/
theorem readings_bare (tolerant : Bool) (stop : Pos) (gs : List Glyph)
    (ha : ∀ b ∈ Glyph.spelling gs, b < 0x80) (hr : ¬rawMark <:+: Glyph.spelling gs) :
    (outputOf (Source.content (⟨gs.map bare, {}, tolerant⟩ : Lexer))).readings =
      (outputOf (Source.content (⟨gs, stop, tolerant⟩ : Lexer))).readings := by
  induction gs using lexeme_induction stop tolerant with
  | nil =>
      rw [List.map_nil, content_nil, content_nil]
  | error g gs e h =>
      have hb := lexeme_bare tolerant stop g gs (ha _ List.mem_cons_self) hr
      rw [h] at hb
      rw [List.map_cons, content_error hb, content_error h]
      rfl
  | token g gs x h ih =>
      have hb := lexeme_bare tolerant stop g gs (ha _ List.mem_cons_self) hr
      rw [h] at hb
      have hw := (cuts_lexeme h).whole
      rw [← hw, Cut.whole, Glyph.spelling_append] at ha hr
      have ih := ih (fun b hb => ha b (List.mem_append_right _ hb)) fun hi =>
        hr (hi.trans (List.suffix_append _ _).isInfix)
      rw [List.map_cons, content_cons hb, content_cons h]
      simp only [Output.readings, outputOf, Prod.mk.injEq] at ih ⊢
      exact ⟨congrArg (_ :: ·) ih.1, ih.2⟩

theorem bare_eq_of_spelling {gs hs : List Glyph} (h : Glyph.spelling gs = Glyph.spelling hs) :
    gs.map bare = hs.map bare := by
  have hb (gs : List Glyph) : gs.map bare = (Glyph.spelling gs).map fun b => ⟨b, {}, []⟩ := by
    rw [Glyph.spelling, List.map_map]
    rfl
  rw [hb, hb, h]

end Lexer

open Text (unsplice)

theorem Text.mem_of_mem_unsplice {b : UInt8} {t : Text} (h : b ∈ unsplice t) : b ∈ t := by
  fun_induction unsplice t with
  | case1 => exact h
  | case2 t ih | case3 t ih | case4 t _ ih => simp [ih h]
  | case5 c t _ _ _ ih =>
      obtain rfl | h := List.mem_cons.1 h
      · exact List.mem_cons_self
      · exact List.mem_cons_of_mem c (ih h)

/-- Joining lines is a phase before scanning: an ASCII text in which no string is raw is scanned
as the text without its line joins is scanned by a lexer that joins no lines. -/
theorem tokenize_eq_unsplice {src : Text} (ha : ∀ b ∈ src, b < 0x80)
    (hr : ¬Lexer.rawMark <:+: unsplice src) :
    (tokenize src).readings =
      (TokenStream.drain
        (Buffered.ofSource (Lexer.ofUnsplicedText (unsplice src)))).1.readings := by
  have hs := Glyph.spelling_spliced .start src
  have hp := Glyph.spelling_plain .start (unsplice src)
  have hu : ∀ b ∈ unsplice src, b < 0x80 := fun b hb => ha b (Text.mem_of_mem_unsplice hb)
  rw [tokenize_eq, TokenStream.drain_fst, Buffered.content_ofSource]
  have h₁ := Lexer.readings_bare false (Pos.start.atEnd src) _ (by rwa [hs]) (by rwa [hs])
  have h₂ :=
    Lexer.readings_bare false (Pos.start.atEnd (unsplice src)) _ (by rwa [hp]) (by rwa [hp])
  rw [Lexer.bare_eq_of_spelling (hs.trans hp.symm)] at h₁
  exact h₁.symm.trans h₂

/-- Line joins in a name, in the letters and the text of a string, and between a digit and a
dot. -/
theorem tokenize_eq_unsplice_sample :
    (tokenize (ascii "a\\\nb u\\\r\n8\"x\\\ry\" 1\\\n.5")).readings =
      (TokenStream.drain (Buffered.ofSource
        (Lexer.ofUnsplicedText (ascii "ab u8\"xy\" 1.5")))).1.readings := by
  have hu : unsplice (ascii "a\\\nb u\\\r\n8\"x\\\ry\" 1\\\n.5") = ascii "ab u8\"xy\" 1.5" := by
    decide +kernel
  rw [← hu]
  exact tokenize_eq_unsplice (by decide +kernel) (by decide +kernel)

end CPreprocessor

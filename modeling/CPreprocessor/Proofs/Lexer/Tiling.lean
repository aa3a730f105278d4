import CPreprocessor.Proofs.Lexer.Characters
import CPreprocessor.Proofs.Lexer.Tokens
import CPreprocessor.Proofs.Source.Unsplicing

/-!
No byte of a source is lost. The tokens of a scan lie one behind the other, from the first
byte that is not part of a line join to the end, and each text is the slice of the source
its token spans, without line joins or, between the quotes of a raw string, with them.
-/

namespace CPreprocessor
namespace Token

open Text (unsplice)
open Spelling (rawLetters)

/-- Tokens of at least one byte that lie one behind the other from an offset up to another. -/
inductive Tiles : Int → List Token → Int → Prop where
  | nil {z : Int} : Tiles z [] z
  | cons {t : Token} {ts : List Token} {z : Int} : 0 < t.length →
      Tiles (t.pos.offset + t.length) ts z → Tiles t.pos.offset (t :: ts) z

/-- The bytes of a source that a token spans. -/
def slice (src : Text) (t : Token) : Text :=
  (src.drop t.pos.offset.toNat).take t.length.toNat

/-- Whether a token is a raw string, by the letters in front of its opening quote. -/
def isRaw (t : Token) : Bool :=
  t.kind == .string && rawLetters.contains (t.text.takeWhile (· != Byte.quote))

/-- The text of a token is the slice it spans without line joins. A raw string is written as
the slice has it from its opening quote through its closing one. -/
def Transcribes (t : Token) (slice : Text) : Prop :=
  if t.isRaw then
    ∃ letters inner joins, slice = letters ++ Byte.quote :: inner ++ Byte.quote :: joins ∧
      t.text = unsplice letters ++ Byte.quote :: inner ++ [Byte.quote] ∧
      unsplice letters ∈ rawLetters ∧ unsplice joins = []
  else t.text = unsplice slice

theorem isRaw_eq_false_of_kind {t : Token} (h : t.kind ≠ .string) : t.isRaw = false := by
  simp [isRaw, h]

theorem takeWhile_letters {letters : Text}
    (h : letters ∈ Spelling.charsets ∨ letters ∈ rawLetters) (t : Text) :
    (letters ++ Byte.quote :: t).takeWhile (· != Byte.quote) = letters := by
  have hq : ∀ b ∈ letters, (b != Byte.quote) = true := fun b hb =>
    bne_iff_ne.2 (Byte.of_isIdent (Lexer.isIdent_of_mem_letters h.symm b hb)).2.2.2.1
  rw [List.takeWhile_append_of_pos hq]
  simp

theorem isRaw_of_letters {t : Token} {letters u : Text} (hk : t.kind = .string)
    (hl : letters ∈ rawLetters) (ht : t.text = letters ++ Byte.quote :: u) : t.isRaw = true := by
  rw [isRaw, hk, ht, takeWhile_letters (.inr hl) u]
  simpa using hl

end Token

namespace Lexer

open Glyph Spelling
open Token (isRaw Transcribes Tiles slice takeWhile_letters)
open Text (unsplice joinsLength)

variable {tolerant : Bool} {stop : Pos}

/-- A token spelled by the glyphs it takes is transcribed, unless it is taken for a raw string. -/
theorem transcribes_spelled {x : Lexeme} (pos : Pos) (hr : Read x.cut.whole)
    (ht : x.text = spelling x.cut.taken) (h : (place pos x).isRaw = false) :
    (place pos x).Transcribes (x.cut.taken.flatMap source) := by
  rw [Transcribes, h]
  exact ht.trans hr.unsplice_sources.symm

theorem transcribes_quotedLexeme {start : Pos} {kind : Kind} (letters : List Glyph) {q : Glyph}
    {gs : List Glyph} {x : Lexeme} (pos : Pos) (hr : Read (letters ++ q :: gs))
    (hq : Quotes kind q.byte) (hl : spelling letters ∈ charsets)
    (h : quotedLexeme tolerant start stop kind letters q gs = .ok x) :
    (place pos x).Transcribes (x.cut.taken.flatMap source) := by
  rw [← (cuts_quotedLexeme h).whole] at hr
  unfold quotedLexeme at h
  split at h
  · rename_i c hc
    cases h
    refine transcribes_spelled pos hr rfl ?_
    generalize hb : q.byte = b at hq
    cases hq with
    | character => rfl
    | string =>
        have hd : ∀ u ∈ charsets, rawLetters.contains u = false := by decide
        have ht := takeWhile_letters (.inl hl) (spelling c.taken)
        simp only [isRaw, place, spelledLexeme, Cut.taken_prepend, spelling_append, spelling_cons,
          hb, List.append_assoc, List.cons_append]
        rw [show spelling [] ++ spelling c.taken = spelling c.taken from rfl, ht, hd _ hl]
        rfl
  · rename_i c hc
    split at h
    · cases h
      exact transcribes_spelled pos hr rfl rfl
    · cases h
  · cases h

/-- The joins behind a glyph other than a backslash are taken out whole. -/
theorem unsplice_splices {g : Glyph} {gs : List Glyph} (hr : Read (g :: gs))
    (hg : g.byte ≠ Byte.backslash) : unsplice g.splices = [] := by
  have hu : unsplice ([g].flatMap source) = spelling [g] := Read.unsplice_sources hr
  have hj : joinFirst g.source = false := by
    rw [source]
    cases g.splices <;> simp [joinFirst, hg]
  rw [List.flatMap_singleton, source, Text.unsplice_cons hj] at hu
  exact (List.cons.inj hu).2

theorem verbatim_append (gs : List Glyph) {hs : List Glyph} (h : hs ≠ []) :
    verbatim (gs ++ hs) = gs.flatMap source ++ verbatim hs := by
  induction gs with
  | nil => rfl
  | cons g gs ih =>
      rw [List.cons_append, verbatim_cons g (List.append_ne_nil_of_right_ne_nil gs h), ih,
        List.flatMap_cons, List.append_assoc]

theorem verbatim_concat (gs : List Glyph) (g : Glyph) :
    verbatim (gs ++ [g]) = gs.flatMap source ++ [g.byte] :=
  verbatim_append gs (List.cons_ne_nil g [])

theorem transcribes_raw {start pos : Pos} {q : Glyph} {letters gs : List Glyph} {c : Cut}
    {x : Lexeme} (hr : Read (letters ++ q :: gs)) (hq : q.byte = Byte.quote)
    (hl : spelling letters ∈ rawLetters) (h : rawString start q gs = .ok c)
    (hk : x.kind = .string) (hx : x.text = spelling letters ++ verbatim c.taken)
    (hc : x.cut.taken = letters ++ c.taken) :
    (place pos x).Transcribes (x.cut.taken.flatMap source) := by
  obtain ⟨ms, z, ht, hz⟩ := ends_of_rawString h
  have hv : verbatim c.taken = Byte.quote :: (q.splices ++ ms.flatMap source) ++ [Byte.quote] := by
    rw [ht, verbatim_concat, hz, List.flatMap_cons, source, hq]
    rfl
  have hraw : (place pos x).isRaw = true :=
    Token.isRaw_of_letters hk hl (hx.trans (by rw [hv]; rfl))
  have hz' : unsplice z.splices = [] := by
    rw [← whole_of_rawString h, Cut.whole, ht, List.append_assoc] at hr
    exact unsplice_splices hr.of_append.of_append (by rw [hz]; decide)
  rw [Transcribes, if_pos hraw]
  refine ⟨letters.flatMap source, q.splices ++ ms.flatMap source, z.splices, ?_, ?_, ?_, hz'⟩
  · rw [hc, ht]
    simp [source, hz, hq]
  · rw [hr.unsplice_sources]
    exact hx.trans (by simp [hv])
  · rwa [hr.unsplice_sources]

theorem spelled_wideLexeme (g : Glyph) (gs : List Glyph) :
    (wideLexeme g gs).text = spelling (wideLexeme g gs).cut.taken ∧
      (wideLexeme g gs).kind ≠ .string := by
  unfold wideLexeme
  simp only
  split <;> exact ⟨rfl, by rintro ⟨⟩⟩

theorem spelled_punctLexeme (g : Glyph) (gs : List Glyph) :
    (punctLexeme g gs).text = spelling (punctLexeme g gs).cut.taken ∧
      (punctLexeme g gs).kind ≠ .string := by
  unfold punctLexeme
  split <;> exact ⟨rfl, by rintro ⟨⟩⟩

theorem transcribes_encodedLexeme {g : Glyph} {gs : List Glyph} {x : Lexeme} (pos : Pos)
    (hr : Read (g :: gs)) (hg : (ascii "uULR").contains g.byte = true)
    (h : encodedLexeme tolerant stop g gs = .ok x) :
    (place pos x).Transcribes (x.cut.taken.flatMap source) := by
  have hi : (place pos (identLexeme (g :: gs))).Transcribes
      ((identLexeme (g :: gs)).cut.taken.flatMap source) :=
    transcribes_spelled pos (by simpa [identLexeme, spelledLexeme] using hr) rfl rfl
  have hw := whole_encoding g gs
  have hs := encoding_sound gs hg
  unfold encodedLexeme at h
  rcases he : encoding g gs with ⟨letters, raw⟩
  simp only [he] at h hw hs
  split at h
  · rename_i q t ht
    rw [← hw, Cut.whole, ht] at hr
    split at h
    · rename_i hq
      split at h
      · rename_i hraw
        obtain ⟨c, hc, rfl⟩ := except_map_eq_ok h
        rw [hraw] at hs
        exact transcribes_raw hr hq hs hc rfl rfl rfl
      · rename_i hraw
        rw [if_neg hraw] at hs
        exact transcribes_quotedLexeme letters.taken pos hr (hq ▸ .string) hs h
    · split at h
      · rename_i hq
        rw [hq.2] at hs
        exact transcribes_quotedLexeme letters.taken pos hr (hq.1 ▸ .character) hs h
      · cases h
        exact hi
  · cases h
    exact hi

/-- Every token that is not white space has the text of what it takes. -/
theorem transcribes_lexeme {g : Glyph} {gs : List Glyph} {x : Lexeme} (pos : Pos)
    (hr : Read (g :: gs)) (h : lexeme tolerant stop g gs = .ok x) (hw : x.kind ≠ .whitespace) :
    (place pos x).Transcribes (x.cut.taken.flatMap source) := by
  have hc := (cuts_lexeme h).whole
  unfold lexeme at h
  split at h
  · cases h
  · split at h
    · unfold solidLexeme at h
      split at h
      · obtain ⟨c, -, rfl⟩ := except_map_eq_ok h
        exact transcribes_spelled pos (hc.symm ▸ hr) rfl rfl
      · split at h
        · rename_i hu
          exact transcribes_encodedLexeme pos hr hu h
        · split at h
          · rename_i hq
            exact transcribes_quotedLexeme [] pos hr (hq ▸ .string) (by decide) h
          · split at h
            · rename_i hq
              exact transcribes_quotedLexeme [] pos hr (hq ▸ .character) (by decide) h
            · split at h
              · cases h
                exact transcribes_spelled pos (hc.symm ▸ hr) rfl rfl
              · split at h
                · cases h
                  obtain ⟨ht, hk⟩ := spelled_wideLexeme g gs
                  exact transcribes_spelled pos (hc.symm ▸ hr) ht
                    (Token.isRaw_eq_false_of_kind hk)
                · cases h
                  obtain ⟨ht, hk⟩ := spelled_punctLexeme g gs
                  exact transcribes_spelled pos (hc.symm ▸ hr) ht
                    (Token.isRaw_eq_false_of_kind hk)
    · cases h
      exact absurd rfl hw

/-- The tokens of a text and how they end, strictly or tolerantly read. -/
def scan (tolerant : Bool) (src : Text) : List Token × End :=
  Source.content { ofText src with tolerant }

/-- A lexer whose glyphs start at an offset of the source and are its bytes from there on. -/
structure Stands (src : Text) (offset : Nat) (gs : List Glyph) : Prop where
  read : Read gs
  placed : PlacedFrom offset gs
  sources : src.drop offset = gs.flatMap source
  inside : offset ≤ src.length

theorem stands_ofText (src : Text) : Stands src (joinsLength src) (ofText src).rest := by
  have hs := sources_spliced .start src
  have hl := length_fst_spliced .start src
  have hp := placedFrom_spliced .start src
  rw [hl, show Pos.start.offset = 0 from rfl, Int.zero_add] at hp
  refine ⟨⟨_, _, rfl⟩, hp, ?_, ?_⟩
  · have hd : ((spliced .start src).1 ++ (spliced .start src).2.flatMap source).drop
        (spliced .start src).1.length = (spliced .start src).2.flatMap source := List.drop_left
    rwa [hs, hl] at hd
  · have := congrArg List.length hs
    rw [List.length_append, hl] at this
    omega

/-- One token moves a lexer over the bytes it spans. -/
theorem Stands.lexeme {src : Text} {offset : Nat} {g : Glyph} {gs : List Glyph} {x : Lexeme}
    (hs : Stands src offset (g :: gs)) (h : lexeme tolerant stop g gs = .ok x) :
    Stands src (offset + totalLength x.cut.taken) x.cut.rest ∧
      (place g.pos x).slice src = x.cut.taken.flatMap source := by
  have hw := (cuts_lexeme h).whole
  obtain ⟨hr, hp, hd, hi⟩ := hs
  have ho : g.pos.offset = offset := hp.1
  rw [← hw, Cut.whole] at hr hp hd
  rw [List.flatMap_append] at hd
  have hl := congrArg List.length hd
  simp only [List.length_drop, List.length_append, length_sources] at hl
  refine ⟨⟨hr.of_append, by simpa using hp.of_append, ?_, by omega⟩, ?_⟩
  · rw [← List.drop_drop, hd, ← length_sources, List.drop_left]
  · rw [slice]
    simp only [place, ho, Int.toNat_natCast, hd, ← length_sources, List.take_left]

theorem totalLength_pos {gs : List Glyph} (h : gs ≠ []) : 0 < totalLength gs := by
  cases gs with
  | nil => contradiction
  | cons g gs =>
      rw [totalLength, length]
      omega

/-- The tokens of a scan lie one behind the other up to where its lexer stops. -/
theorem Stands.stops_content {src : Text} {offset : Nat} {gs : List Glyph}
    (hs : Stands src offset gs) (stop : Pos) (tolerant : Bool) :
    ∃ (z : Nat) (rest : List Glyph),
      Tiles offset (Source.content (⟨gs, stop, tolerant⟩ : Lexer)).1 z ∧ Stands src z rest ∧
        pull ⟨rest, stop, tolerant⟩ =
          .stop (Source.content (⟨gs, stop, tolerant⟩ : Lexer)).2
            ⟨rest, stop, tolerant⟩ := by
  induction gs using lexeme_induction stop tolerant generalizing offset with
  | nil =>
      rw [content_nil]
      exact ⟨offset, [], .nil, hs, rfl⟩
  | error g gs e h =>
      rw [content_error h]
      refine ⟨offset, g :: gs, .nil, hs, ?_⟩
      simp only [pull, h]
  | token g gs x h ih =>
      obtain ⟨z, rest, ht, hrest, hp⟩ := ih (hs.lexeme h).1
      have ho : g.pos.offset = offset := hs.placed.1
      rw [content_cons h]
      refine ⟨z, rest, ?_, hrest, hp⟩
      rw [← ho]
      refine .cons (t := place g.pos x) ?_ ?_
      · exact Int.natCast_pos.2 (totalLength_pos (cuts_lexeme h).taken_ne_nil)
      · rw [show (place g.pos x).pos.offset = offset from ho]
        exact ht

/-- A lexer at the end of the source stands behind its last byte. -/
theorem Stands.eq_length {src : Text} {z : Nat} (hs : Stands src z []) : z = src.length := by
  have hl := congrArg List.length hs.sources
  have hi := hs.inside
  simp only [List.length_drop, List.flatMap_nil, List.length_nil] at hl
  omega

theorem Stands.tiles_content {src : Text} {offset : Nat} {gs : List Glyph}
    (hs : Stands src offset gs) :
    ∃ z : Nat, Tiles offset (Source.content (⟨gs, stop, tolerant⟩ : Lexer)).1 z ∧
      z ≤ src.length ∧
      ((Source.content (⟨gs, stop, tolerant⟩ : Lexer)).2 = .eof → z = src.length) := by
  obtain ⟨z, rest, ht, hrest, hp⟩ := hs.stops_content stop tolerant
  refine ⟨z, ht, hrest.inside, fun he => ?_⟩
  cases rest with
  | nil => exact hrest.eq_length
  | cons g gs =>
      rw [he] at hp
      simp only [pull] at hp
      split at hp <;> cases hp

theorem Stands.transcribes {src : Text} {offset : Nat} {gs : List Glyph}
    (hs : Stands src offset gs) {t : Token}
    (ht : t ∈ (Source.content (⟨gs, stop, tolerant⟩ : Lexer)).1) (hk : t.isSpace = false) :
    t.Transcribes (t.slice src) := by
  induction gs using lexeme_induction stop tolerant generalizing offset with
  | nil => rw [content_nil] at ht; cases ht
  | error g gs e h => rw [content_error h] at ht; cases ht
  | token g gs x h ih =>
      obtain ⟨hs', hx⟩ := hs.lexeme h
      rw [content_cons h] at ht
      obtain rfl | ht := List.mem_cons.1 ht
      · rw [hx]
        exact transcribes_lexeme g.pos hs.read h (by simpa [Token.isSpace, place] using hk)
      · exact ih hs' ht

/-- The tokens of a scan, strict or tolerant, lie one behind the other from the end of the
leading line joins, up to the end of the source if the scan ends without a fault. Each but
white space has the text of the slice it spans. -/
theorem tiles_scan (tolerant : Bool) (src : Text) :
    (∃ z : Nat, Tiles (joinsLength src) (scan tolerant src).1 z ∧ z ≤ src.length ∧
      ((scan tolerant src).2 = .eof → z = src.length)) ∧
    ∀ t ∈ (scan tolerant src).1, t.isSpace = false → t.Transcribes (t.slice src) :=
  ⟨(stands_ofText src).tiles_content, fun _ => (stands_ofText src).transcribes⟩

end Lexer
end CPreprocessor

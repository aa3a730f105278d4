import CPreprocessor.Lexer
import CPreprocessor.Proofs.Lexer.Spelling
import CPreprocessor.Proofs.TokenStream.Content

/-!
The tokens of a glyph sequence, lexeme by lexeme, and what their texts can be.
-/

namespace CPreprocessor

theorem tokenize_eq (src : Text) :
    tokenize src = ⟨(Source.content (Lexer.ofText src)).1,
      (Source.content (Lexer.ofText src)).2.error?⟩ :=
  TokenStream.drain_fst _

namespace Lexer

open Glyph

variable {stop : Pos} {tolerant : Bool}

theorem content_nil : Source.content (⟨[], stop, tolerant⟩ : Lexer) = ([], .eof) := by
  have h : Source.pull (⟨[], stop, tolerant⟩ : Lexer) = .stop .eof ⟨[], stop, tolerant⟩ :=
    rfl
  exact Source.content_of_stop h

theorem content_cons {g : Glyph} {gs : List Glyph} {x : Lexeme}
    (h : lexeme tolerant stop g gs = .ok x) :
    Source.content (⟨g :: gs, stop, tolerant⟩ : Lexer) =
      (place g.pos x :: (Source.content (⟨x.cut.rest, stop, tolerant⟩ : Lexer)).1,
        (Source.content (⟨x.cut.rest, stop, tolerant⟩ : Lexer)).2) := by
  refine Source.content_of_token ?_
  change pull _ = _
  simp only [pull, h]

theorem content_error {g : Glyph} {gs : List Glyph} {e : Error}
    (h : lexeme tolerant stop g gs = .error e) :
    Source.content (⟨g :: gs, stop, tolerant⟩ : Lexer) = ([], .fault e) := by
  have hp : Source.pull (⟨g :: gs, stop, tolerant⟩ : Lexer) =
      .stop (.fault e) ⟨g :: gs, stop, tolerant⟩ := by
    change pull _ = _
    simp only [pull, h]
  exact Source.content_of_stop hp

/-- Induction along the lexemes of a glyph sequence. -/
theorem lexeme_induction (stop : Pos) (tolerant : Bool) {motive : List Glyph → Prop}
    (nil : motive [])
    (token : ∀ g gs x, lexeme tolerant stop g gs = .ok x → motive x.cut.rest →
      motive (g :: gs))
    (error : ∀ g gs e, lexeme tolerant stop g gs = .error e → motive (g :: gs))
    (gs : List Glyph) : motive gs := by
  induction hn : gs.length using Nat.strongRecOn generalizing gs with
  | ind n ih =>
      cases gs with
      | nil => exact nil
      | cons g gs =>
          cases hx : lexeme tolerant stop g gs with
          | error e => exact error g gs e hx
          | ok x => exact token g gs x hx (ih _ (hn ▸ (cuts_lexeme hx).rest_lt) _ rfl)

theorem space_of_blank {g : Glyph} (gs : List Glyph)
    (h : Byte.isLineBreak g.byte = true ∨ Byte.isBlank g.byte = true) :
    space (g :: gs) =
      (space gs).map (.prepend [g.byte] (Byte.isLineBreak g.byte) [g]) := by
  rw [space]
  by_cases hl : Byte.isLineBreak g.byte = true
  · rw [if_pos hl, hl]
  · rw [if_neg hl, if_pos (h.resolve_left hl), Bool.eq_false_iff.2 hl]

theorem space_of_absent {g : Glyph} {gs : List Glyph} (hb : ¬Byte.isLineBreak g.byte = true)
    (hl : ¬Byte.isBlank g.byte = true) (hc : comment (g :: gs) = .absent) :
    space (g :: gs) = some (.none (g :: gs)) := by
  rw [space, if_neg hb, if_neg hl]
  split <;> simp_all

theorem space_of_unterminated {g : Glyph} {gs : List Glyph} (hb : ¬Byte.isLineBreak g.byte = true)
    (hl : ¬Byte.isBlank g.byte = true) (hc : comment (g :: gs) = .unterminated) :
    space (g :: gs) = none := by
  rw [space, if_neg hb, if_neg hl]
  split <;> simp_all

theorem space_of_found {g : Glyph} {gs : List Glyph} {c : Cut}
    (hb : ¬Byte.isLineBreak g.byte = true) (hl : ¬Byte.isBlank g.byte = true)
    (hc : comment (g :: gs) = .found c) :
    space (g :: gs) = (space c.rest).map (.prepend [Byte.space] false c.taken) := by
  rw [space, if_neg hb, if_neg hl]
  split <;> simp_all

/-- A run of white space without text is none at all. -/
theorem eq_none_of_space {gs : List Glyph} {s : Space} (h : space gs = some s) (hs : s.text = []) :
    s = .none gs := by
  cases gs with
  | nil =>
      rw [space] at h
      exact (Option.some.inj h).symm
  | cons g gs =>
      rw [space] at h
      split at h
      · obtain ⟨d, -, rfl⟩ := Option.map_eq_some_iff.1 h
        cases hs
      · split at h
        · obtain ⟨d, -, rfl⟩ := Option.map_eq_some_iff.1 h
          cases hs
        · split at h
          · exact (Option.some.inj h).symm
          · cases h
          · obtain ⟨d, -, rfl⟩ := Option.map_eq_some_iff.1 h
            cases hs

/-- The text of white space is white space, a comment being one space. -/
theorem blank_of_space {gs : List Glyph} {s : Space} (h : space gs = some s) :
    ∀ b ∈ s.text, Byte.isLineBreak b = true ∨ Byte.isBlank b = true := by
  fun_induction space gs generalizing s with
  | case1 | case4 =>
      cases h
      intro b hb
      cases hb
  | case2 g gs hg ih =>
      obtain ⟨d, hd, rfl⟩ := Option.map_eq_some_iff.1 h
      exact List.forall_mem_cons.2 ⟨.inl hg, ih hd⟩
  | case3 g gs _ hg ih =>
      obtain ⟨d, hd, rfl⟩ := Option.map_eq_some_iff.1 h
      exact List.forall_mem_cons.2 ⟨.inr hg, ih hd⟩
  | case5 => cases h
  | case6 g gs _ _ c hc ih =>
      obtain ⟨d, hd, rfl⟩ := Option.map_eq_some_iff.1 h
      exact List.forall_mem_cons.2 ⟨.inr (by decide), ih hd⟩

theorem kind_of_quotedLexeme {start : Pos} {kind : Kind} {letters : List Glyph} {q : Glyph}
    {gs : List Glyph} {x : Lexeme}
    (h : quotedLexeme tolerant start stop kind letters q gs = .ok x) :
    x.kind = kind ∨ x.kind = .invalid := by
  unfold quotedLexeme at h
  split at h
  · cases h
    exact .inl rfl
  · split at h
    · cases h
      exact .inr rfl
    · cases h
  · cases h

/-- Only a run of white space is scanned as white space. -/
theorem kind_ne_whitespace_of_solidLexeme {g : Glyph} {gs : List Glyph} {x : Lexeme}
    (h : solidLexeme tolerant stop g gs = .ok x) : x.kind ≠ .whitespace := by
  have hquoted {start : Pos} {kind : Kind} {letters : List Glyph} {q : Glyph} {gs : List Glyph}
      (hk : kind ≠ .whitespace)
      (h : quotedLexeme tolerant start stop kind letters q gs = .ok x) :
        x.kind ≠ .whitespace := by
    rcases kind_of_quotedLexeme h with h | h
    · rwa [h]
    · simp [h]
  unfold solidLexeme at h
  split at h
  · obtain ⟨c, -, rfl⟩ := except_map_eq_ok h
    exact Kind.noConfusion
  · split at h
    · unfold encodedLexeme at h
      simp only at h
      split at h
      · split at h
        · split at h
          · obtain ⟨c, -, rfl⟩ := except_map_eq_ok h
            exact Kind.noConfusion
          · exact hquoted Kind.noConfusion h
        · split at h
          · exact hquoted Kind.noConfusion h
          · cases h
            exact Kind.noConfusion
      · cases h
        exact Kind.noConfusion
    · split at h
      · exact hquoted Kind.noConfusion h
      · split at h
        · exact hquoted Kind.noConfusion h
        · split at h
          · cases h
            exact Kind.noConfusion
          · split at h
            · cases h
              unfold wideLexeme
              simp only
              split <;> exact Kind.noConfusion
            · cases h
              unfold punctLexeme
              split <;> exact Kind.noConfusion

/-- White space is a run that the scanner of white space takes. -/
theorem space_of_lexeme {g : Glyph} {gs : List Glyph} {x : Lexeme}
    (h : lexeme tolerant stop g gs = .ok x) (hk : x.kind = .whitespace) :
    ∃ s, space (g :: gs) = some s ∧ s.text ≠ [] ∧
      x = ⟨.whitespace, s.text, s.newline, s.cut⟩ := by
  unfold lexeme at h
  split at h
  · cases h
  · rename_i s hs
    split at h
    · exact absurd hk (kind_ne_whitespace_of_solidLexeme h)
    · rename_i hn
      cases h
      exact ⟨s, hs, hn, rfl⟩

/-- A comment at the beginning that is not closed is an error. -/
theorem pull_of_space_eq_none {l : Lexer} (h : space l.rest = none) :
    ∃ e, l.pull = .stop (.fault e) l := by
  cases hr : l.rest with
  | nil =>
      rw [hr, space] at h
      cases h
  | cons g gs =>
      rw [hr] at h
      simp only [pull, hr, lexeme, h]
      exact ⟨_, rfl⟩

/-- White space at the beginning is one token. -/
theorem pull_of_space {l : Lexer} {s : Space} (h : space l.rest = some s)
    (hs : s.text ≠ []) :
    ∃ t, l.pull = .token t { l with rest := s.cut.rest } ∧ t.isSpace = true ∧
      t.text = s.text := by
  cases hr : l.rest with
  | nil =>
      rw [hr, space] at h
      cases h
      exact absurd rfl hs
  | cons g gs =>
      rw [hr] at h
      simp only [pull, hr, lexeme, h, if_neg hs]
      exact ⟨_, rfl, rfl, rfl⟩

/-- What is true of every lexeme is true of every token. -/
theorem forall_mem_content {P : Token → Prop}
    (hP : ∀ g gs x, Read (g :: gs) → lexeme tolerant stop g gs = .ok x → P (place g.pos x))
    {gs : List Glyph} (hr : Read gs) :
    ∀ t ∈ (Source.content (⟨gs, stop, tolerant⟩ : Lexer)).1, P t := by
  intro t ht
  induction gs using lexeme_induction stop tolerant with
  | nil => rw [content_nil] at ht; cases ht
  | error g gs e h => rw [content_error h] at ht; cases ht
  | token g gs x h ih =>
      rw [content_cons h] at ht
      have hw := (cuts_lexeme h).whole
      obtain rfl | ht := List.mem_cons.1 ht
      · exact hP g gs x hr h
      · rw [← hw, Cut.whole] at hr
        exact ih hr.of_append ht

/-- The tokens of a strict scan are spelled in their kinds. -/
theorem spells_of_mem_content {gs : List Glyph} (hr : Read gs) {t : Token}
    (ht : t ∈ (Source.content (⟨gs, stop, false⟩ : Lexer)).1) (hs : t.isSpace = false)
    (hi : t.kind ≠ .invalid) : Spells t.kind t.text :=
  forall_mem_content
    (P := fun t => t.isSpace = false → t.kind ≠ .invalid → Spells t.kind t.text)
    (fun g gs x hr h hs => lexeme_sound hr h (by simpa [Token.isSpace, place] using hs))
    hr t ht hs hi

end Lexer

theorem spells_of_mem_tokenize {src : Text} {t : Token} (ht : t ∈ (tokenize src).tokens)
    (hs : t.isSpace = false) (hi : t.kind ≠ .invalid) : Spells t.kind t.text := by
  rw [tokenize_eq] at ht
  exact Lexer.spells_of_mem_content ⟨.start, src, rfl⟩ ht hs hi

end CPreprocessor

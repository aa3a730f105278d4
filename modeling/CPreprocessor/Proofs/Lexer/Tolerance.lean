import CPreprocessor.Directive.ActiveText
import CPreprocessor.Proofs.Lexer.Failure

/-!
The two modes of the lexer. A tolerant scan differs from a strict one only where the strict one
fails, so the tolerant tokens of a text are the ones it has whichever mode it is read in.
-/

namespace CPreprocessor
namespace Lexer

/-- A scan that no escape sequence stops is the same in both modes. -/
theorem literalTail_tolerant (stop : Pos) (mark : UInt8) (gs : List Glyph) :
    (∃ e, literalTail false stop mark gs = .broken e) ∨
      literalTail true stop mark gs = literalTail false stop mark gs := by
  have hprepend {q r : Closing} (hs : List Glyph) (h : (∃ e, q = .broken e) ∨ r = q) :
      (∃ e, q.prepend hs = .broken e) ∨ r.prepend hs = q.prepend hs := by
    rcases h with ⟨e, rfl⟩ | rfl
    · exact .inl ⟨e, rfl⟩
    · exact .inr rfl
  fun_induction literalTail false stop mark gs with
  | case1 => exact .inr rfl
  | case2 g hg => exact .inr (by simp [literalTail, hg])
  | case3 g hg hb => exact .inr (by simp [literalTail, hg, hb])
  | case4 g hg hb => exact .inr (by simp [literalTail, hg, hb])
  | case5 g h gs hg => exact .inr (by simp [literalTail, hg])
  | case6 g h gs hg hb => exact .inr (by simp [literalTail, hg, hb])
  | case7 g h gs hg hb hs he ih =>
      rw [literalTail, if_neg hg, if_neg hb, if_pos hs, if_pos he]
      exact hprepend [g, h] ih
  | case8 g h gs hg hb hs he e hx ht => cases ht
  | case9 g h gs hg hb hs he e hx => exact .inl ⟨e, rfl⟩
  | case10 g h gs hg hb hs he hx ih =>
      rw [literalTail, if_neg hg, if_neg hb, if_pos hs, if_neg he, hx]
      exact hprepend [g] ih
  | case11 g h gs hg hb hs ih =>
      rw [literalTail, if_neg hg, if_neg hb, if_neg hs]
      exact hprepend [g] ih

theorem quotedLexeme_tolerant {start stop : Pos} {kind : Kind} {letters : List Glyph} {q : Glyph}
    {gs : List Glyph} {x : Lexeme} (h : quotedLexeme false start stop kind letters q gs = .ok x) :
    quotedLexeme true start stop kind letters q gs = .ok x := by
  unfold quotedLexeme at h ⊢
  rcases literalTail_tolerant stop q.byte gs with ⟨e, he⟩ | he
  · rw [he] at h
    cases h
  · rw [he]
    split at h
    · exact h
    · cases h
    · cases h

theorem encodedLexeme_tolerant {stop : Pos} {g : Glyph} {gs : List Glyph} {x : Lexeme}
    (h : encodedLexeme false stop g gs = .ok x) : encodedLexeme true stop g gs = .ok x := by
  unfold encodedLexeme at h ⊢
  generalize encoding g gs = c at h ⊢
  obtain ⟨⟨taken, rest⟩, raw⟩ := c
  cases rest with
  | nil => exact h
  | cons q t =>
      simp only at h ⊢
      split
      · rename_i hq
        rw [if_pos hq] at h
        cases raw with
        | true => exact h
        | false => exact quotedLexeme_tolerant h
      · rename_i hq
        rw [if_neg hq] at h
        split
        · rename_i hr
          rw [if_pos hr] at h
          exact quotedLexeme_tolerant h
        · rename_i hr
          rwa [if_neg hr] at h

theorem solidLexeme_tolerant {stop : Pos} {g : Glyph} {gs : List Glyph} {x : Lexeme}
    (h : solidLexeme false stop g gs = .ok x) : solidLexeme true stop g gs = .ok x := by
  unfold solidLexeme at h ⊢
  split
  · rename_i hn
    rwa [if_pos hn] at h
  · rename_i hn
    rw [if_neg hn] at h
    split
    · rename_i hu
      rw [if_pos hu] at h
      exact encodedLexeme_tolerant h
    · rename_i hu
      rw [if_neg hu] at h
      split
      · rename_i hq
        rw [if_pos hq] at h
        exact quotedLexeme_tolerant h
      · rename_i hq
        rw [if_neg hq] at h
        split
        · rename_i ha
          rw [if_pos ha] at h
          exact quotedLexeme_tolerant h
        · rename_i ha
          rwa [if_neg ha] at h

theorem lexeme_tolerant {stop : Pos} {g : Glyph} {gs : List Glyph} {x : Lexeme}
    (h : lexeme false stop g gs = .ok x) (tolerant : Bool) : lexeme tolerant stop g gs = .ok x := by
  cases tolerant with
  | false => exact h
  | true =>
      unfold lexeme at h ⊢
      split at h
      · cases h
      · split at h
        · rename_i ht
          simp only [ht, if_true]
          exact solidLexeme_tolerant h
        · rename_i ht
          simp only [ht, if_false]
          exact h

variable {l l₁ : Lexer}

/-- A token that is handed out in some mode is handed out in the tolerant one. -/
theorem pull_tolerant {t : Token} (h : l.pull = .token t l₁) :
    pull { l with tolerant := true } = .token t { l₁ with tolerant := true } := by
  unfold pull at h ⊢
  split at h
  · cases h
  · rename_i g gs hr
    simp only [hr]
    split at h
    · rename_i x hx
      have hx' : lexeme true l.stop g gs = .ok x := by
        cases ht : l.tolerant with
        | true => rwa [ht] at hx
        | false =>
            rw [ht] at hx
            exact lexeme_tolerant hx true
      rw [hx']
      cases h
      rfl
    · cases h

end Lexer
end CPreprocessor

import CPreprocessor.Proofs.Lexer.Recognition

/-!
Where the printer leaves two tokens touching, the second does not extend the first. The
printer looks at two tokens only, while the longest punctuator reaches into a third; that
one is kept off because the second token is kept apart from it.
-/

namespace CPreprocessor

open Spelling

/-- The first byte of a spelling is seen by the scanner, and so is the rest of a punctuator. -/
structure Opens (k : Kind) (t u : Text) : Prop where
  head : u.head? = t.head?
  punctuator : k = .punctuator → u = t

/-- The bytes a token of each kind may begin with. -/
def Spelling.first : Kind → UInt8 → Bool
  | .identifier, b => Byte.isIdentStart b
  | .number, b => Byte.isDigit b || b == '.'.toUInt8
  | .string, b => Byte.isIdentStart b || b == Byte.quote
  | .character, b => Byte.isIdentStart b || b == Byte.apostrophe
  | .punctuator, b => isSingle b || decide (0x80 ≤ b)
  | _, _ => false

namespace Spells

theorem exists_first {k : Kind} {t : Text} (h : Spells k t) :
    ∃ b r, t = b :: r ∧ first k b = true := by
  cases h with
  | identifier h =>
      cases t with
      | nil => cases h
      | cons b t => exact ⟨b, t, rfl, h.1⟩
  | number h =>
      cases t with
      | nil => cases h
      | cons b t =>
          refine ⟨b, t, rfl, ?_⟩
          simpa [first] using Lexer.isDigit_or_dot_of_numberFirst h.1
  | @literal _ mark letters t hq hl _ =>
      have hall : ∀ l ∈ charsets, l = [] ∨ Byte.isIdentStart (l.headD 0) = true := by decide
      cases letters with
      | nil =>
          refine ⟨mark, t, rfl, ?_⟩
          cases hq <;> decide
      | cons b l =>
          have hb : Byte.isIdentStart b = true := (hall _ hl).resolve_left (List.cons_ne_nil b l)
          refine ⟨b, l ++ mark :: t, rfl, ?_⟩
          cases hq <;> simp [first, hb]
  | @raw letters t hl _ =>
      have hall : ∀ l ∈ rawLetters, l ≠ [] ∧ Byte.isIdentStart (l.headD 0) = true := by
        decide
      cases letters with
      | nil => exact absurd rfl (hall _ hl).1
      | cons b l =>
          have hb : Byte.isIdentStart b = true := (hall _ hl).2
          exact ⟨b, l ++ t, rfl, by simp [first, hb]⟩
  | punctuator h =>
      cases t with
      | nil => exact absurd rfl (Lexer.noBreak_of_mem_punctuators h).1
      | cons b t => exact ⟨b, t, rfl, by simp [first, Lexer.of_mem_punctuators h]⟩
  | @single b h => exact ⟨b, [], rfl, by simp [first, h]⟩
  | @wide b t _ h _ => exact ⟨b, t, rfl, by simp [first, h]⟩

/-- No token begins with a line break. -/
theorem head_noBreak {k : Kind} {b : UInt8} {t : Text} (h : Spells k (b :: t)) :
    Byte.isLineBreak b = false := by
  obtain ⟨c, r, hc, hf⟩ := h.exists_first
  obtain ⟨rfl, rfl⟩ := List.cons.inj hc
  rw [Bool.eq_false_iff]
  intro hb
  obtain rfl | rfl := Byte.isLineBreak_eq_true hb <;> cases k <;> cases hf

theorem ne_nil {k : Kind} {t : Text} (h : Spells k t) : t ≠ [] := by
  obtain ⟨b, r, rfl, -⟩ := h.exists_first
  exact List.cons_ne_nil b r

theorem not_whitespace {k : Kind} {t : Text} (h : Spells k t) : k ≠ .whitespace := by
  obtain ⟨b, r, -, hf⟩ := h.exists_first
  rintro rfl
  cases hf

theorem not_invalid {k : Kind} {t : Text} (h : Spells k t) : k ≠ .invalid := by
  obtain ⟨b, r, -, hf⟩ := h.exists_first
  rintro rfl
  cases hf

end Spells

/-- Only literals begin with a quote. -/
theorem Spelling.kind_of_first_quote {k : Kind} {b : UInt8} (h : first k b = true)
    (hb : b = Byte.quote ∨ b = Byte.apostrophe) : k = .string ∨ k = .character := by
  obtain rfl | rfl := hb <;> cases k <;> simp_all +decide

namespace Spells

theorem punctuator_noBreak {t : Text} (h : Spells .punctuator t) :
    ∀ b ∈ t, Byte.isLineBreak b = false := by
  cases h with
  | literal hq _ _ => cases hq
  | punctuator h => exact (Lexer.noBreak_of_mem_punctuators h).2
  | single h => exact List.forall_mem_singleton.2 (not_isLineBreak_of_isSingle h)
  | wide hb h => exact Lexer.noBreak_of_decode hb h

/-- A punctuator is the beginning of the vocabulary's words only as far as it is one itself. -/
theorem punctuator_isPrefix {t : Text} (h : Spells .punctuator t) :
    t ∈ Vocabulary.punctuators ∨ (∃ b, t = [b]) ∨
    ∀ p ∈ Vocabulary.punctuators, ¬t <+: p := by
  cases h with
  | literal hq _ _ => cases hq
  | punctuator h => exact .inl h
  | @single b _ => exact .inr (.inl ⟨b, rfl⟩)
  | @wide b t _ hb _ =>
      refine .inr (.inr fun p hp hpre => ?_)
      obtain ⟨s, rfl⟩ := hpre
      have hs := (Lexer.of_mem_punctuators hp).1
      exact absurd hb (UInt8.not_le.2 (lt_of_isSingle hs))

end Spells

/-- How a word of the vocabulary goes on after a punctuator: with the next byte it is a longer
punctuator already, unless it is an ellipsis or the double hash in digraphs. -/
theorem extension_of_mem_punctuators {t : Text} (ht : Spells .punctuator t) {c : UInt8} {r : Text}
    (hp : t ++ c :: r ∈ Vocabulary.punctuators) :
    Vocabulary.isPunctuator (t ++ [c]) = true ∨ (t = ascii "." ∧ c = '.'.toUInt8) ∨
      (t = ascii "%:" ∧ c = '%'.toUInt8 ∧ r = ascii ":") := by
  have hall : ∀ p ∈ Vocabulary.punctuators, ∀ n < p.length,
      (p.take n ∈ Vocabulary.punctuators ∨ n = 1) →
      Vocabulary.isPunctuator (p.take n ++ [p.getD n 0]) = true ∨
        (p.take n = ascii "." ∧ p.getD n 0 = '.'.toUInt8) ∨
        (p.take n = ascii "%:" ∧ p.getD n 0 = '%'.toUInt8 ∧ p.drop (n + 1) = ascii ":") := by
    decide +kernel
  have := hall _ hp t.length (by simp) ?_
  · simpa using this
  · obtain h | ⟨b, rfl⟩ | h := ht.punctuator_isPrefix
    · left
      simpa using h
    · exact .inr rfl
    · exact absurd (List.prefix_append _ _) (h _ hp)

/-- The third token after a digraph hash and a percent sign begins with no colon. -/
theorem colon_not_next {k : Kind} {r u w : Text} (h : Spells k ('%'.toUInt8 :: r))
    (hu : Opens k ('%'.toUInt8 :: r) ('%'.toUInt8 :: u)) (hw : Stops k ('%'.toUInt8 :: r) w)
    (hr : r ≠ [] → Vocabulary.isPunctuator (ascii "%:" ++ '%'.toUInt8 :: r.take 1) = false) :
    ¬ascii ":" <+: u ++ w := by
  obtain rfl : k = .punctuator := by
    obtain ⟨b, r, hb, hf⟩ := h.exists_first
    obtain ⟨rfl, rfl⟩ := List.cons.inj hb
    cases k <;> first | rfl | cases hf
  obtain ⟨-, rfl⟩ := List.cons.inj (hu.punctuator rfl)
  intro hc
  cases u with
  | nil =>
      have :=
        hw.1 (ascii "%:") (by decide) ⟨ascii ":", rfl⟩ (List.cons_prefix_cons.2 ⟨rfl, hc⟩)
      revert this
      decide
  | cons d u =>
      obtain ⟨rfl, -⟩ := List.cons_prefix_cons.1 hc
      have hd : Vocabulary.isPunctuator (ascii "%:%:") = false := hr (List.cons_ne_nil _ u)
      revert hd
      decide

/-- The bytes that extend no token: blanks, line breaks and those outside ASCII. -/
def Spelling.outside (b : UInt8) : Bool :=
  Byte.isLineBreak b || Byte.isBlank b || decide (0x80 ≤ b)

theorem Spelling.of_outside {b : UInt8} (h : outside b = true) :
    Byte.isIdent b = false ∧ isSingle b = false ∧ b ≠ Byte.quote ∧
    b ≠ Byte.apostrophe := by
  simp only [outside, Bool.or_eq_true, decide_eq_true_eq, or_assoc] at h
  obtain h | h | h := h
  · obtain rfl | rfl := Byte.isLineBreak_eq_true h <;> decide
  · obtain rfl | rfl | rfl | rfl := Byte.isBlank_eq_true h <;> decide
  · obtain ⟨-, -, hident, -, -, hq, ha, -⟩ := Byte.of_le h
    exact ⟨hident, by simp [isSingle, UInt8.not_lt.2 h], hq, ha⟩

/-- Such a byte ends every token. -/
theorem stops_of_outside {b : UInt8} (h : outside b = true) (k : Kind) (t w : Text) :
    Stops k t (b :: w) := by
  obtain ⟨hident, hsingle, hquote, hmark⟩ := of_outside h
  have hne {c : UInt8} (hc : isSingle c = true) : b ≠ c := by
    rintro rfl
    rw [hsingle] at hc
    cases hc
  cases k with
  | identifier =>
      intro c hc
      cases hc
      exact ⟨hident, fun _ => ⟨hquote, hmark⟩⟩
  | number =>
      intro c hc
      cases hc
      refine ⟨hident, hne (by decide), hmark, fun hs => ?_⟩
      simp only [Byte.isSign, Bool.or_eq_true, beq_iff_eq] at hs
      exact absurd hs (not_or.2 ⟨hne (by decide), hne (by decide)⟩)
  | punctuator =>
      refine ⟨fun p hp ht hpw => ?_, fun _ c hc => ?_, fun _ c hc => ?_⟩
      · obtain ⟨s, rfl⟩ := ht
        rw [List.prefix_append_right_inj] at hpw
        cases s with
        | nil => exact List.append_nil t
        | cons c s =>
            obtain ⟨rfl, -⟩ := List.cons_prefix_cons.1 hpw
            exact absurd rfl (hne (isSingle_of_mem_punctuators hp c (by simp)))
      · cases hc
        exact ⟨hne (by decide), hne (by decide)⟩
      · cases hc
        exact (Bool.or_eq_false_iff.1 hident).2
  | unclassified | whitespace | character | string | invalid => trivial

/-- So does the end of the text. -/
theorem stops_nil (k : Kind) (t : Text) : Stops k t [] := by
  cases k with
  | identifier | number =>
      intro c hc
      cases hc
  | punctuator =>
      refine ⟨fun p _ ht hp => ?_, fun _ c hc => ?_, fun _ c hc => ?_⟩
      · rw [List.append_nil] at hp
        exact (ht.eq_of_length_le hp.length_le).symm
      · cases hc
      · cases hc
  | unclassified | whitespace | character | string | invalid => trivial

namespace Printer

variable {prev next : Token}

/-- Tokens that are printed touching do not grow together, whatever is printed after them. -/
theorem stops_of_wouldFuse_eq_false (hp : Spells prev.kind prev.text)
    (hn : Spells next.kind next.text) (hf : wouldFuse prev next = false) {u w : Text}
    (hu : Opens next.kind next.text u) (hw : Stops next.kind next.text w) :
    Stops prev.kind prev.text (u ++ w) := by
  obtain ⟨c, r, hc⟩ := List.exists_cons_of_ne_nil hn.ne_nil
  obtain ⟨u, rfl⟩ : ∃ v, u = c :: v := by
    have hh := hu.head
    rw [hc] at hh
    exact List.head?_eq_some_iff.1 hh
  have hsp : (decide (prev.text = []) || prev.isSpace || next.isSpace) = false := by
    simp [hp.ne_nil, Token.isSpace, hp.not_whitespace, hn.not_whitespace]
  rw [wouldFuse, hc] at hf
  simp only [hsp, Bool.false_eq_true, if_false] at hf
  cases hk : prev.kind with
  | identifier =>
      rw [hk] at hf
      simp only [Bool.or_eq_false_iff, Bool.and_eq_false_imp] at hf
      intro b hb
      cases hb
      refine ⟨hf.1, fun he => ?_⟩
      have hq : ¬(next.kind = .string ∨ next.kind = .character) := by
        intro hq
        have := hf.2 (by simpa using hq)
        simp [he] at this
      obtain ⟨b, r, hb, hfirst⟩ := hn.exists_first
      rw [hc] at hb
      obtain ⟨rfl, rfl⟩ := List.cons.inj hb
      refine not_or.1 fun hb => hq (kind_of_first_quote hfirst hb)
  | number =>
      rw [hk] at hf
      simp only [Bool.or_eq_false_iff, Bool.and_eq_false_imp, beq_eq_false_iff_ne] at hf
      intro b hb
      cases hb
      exact ⟨hf.1.1.1, hf.1.1.2, hf.1.2, hf.2⟩
  | punctuator =>
      rw [hk] at hf hp
      simp only [Bool.or_eq_false_iff, Bool.and_eq_false_imp, beq_iff_eq, beq_eq_false_iff_ne,
        bne_iff_ne] at hf
      obtain ⟨⟨⟨hslash, hdot⟩, hone⟩, htwo⟩ := hf
      refine ⟨fun p hm ht hpw => ?_, fun ht b hb => ?_, fun ht b hb => ?_⟩
      · obtain ⟨s, rfl⟩ := ht
        rw [List.prefix_append_right_inj] at hpw
        cases s with
        | nil => exact List.append_nil _
        | cons d s =>
            rw [List.cons_append] at hpw
            obtain ⟨rfl, hs⟩ := List.cons_prefix_cons.1 hpw
            obtain h | ⟨ht, rfl⟩ | ⟨ht, rfl, rfl⟩ := extension_of_mem_punctuators hp hm
            · simp [h] at hone
            · exact absurd rfl (hdot ht).1
            · rw [hc] at hn hu hw
              rw [ht] at htwo
              exact absurd hs (colon_not_next hn hu hw htwo)
      · cases hb
        exact hslash ht
      · cases hb
        exact (hdot ht).2
  | unclassified | whitespace | character | string | invalid => trivial

/-- A punctuator other than a dot does not grow together with letters and digits. -/
theorem wouldFuse_of_isIdent (hp : prev.kind = .punctuator)
    (hdot : prev.text ≠ ascii ".") (hn : ∀ b ∈ next.text, Byte.isIdent b = true) :
    wouldFuse prev next = false := by
  unfold wouldFuse
  split
  · rfl
  · rename_i c r hc
    have hident : Byte.isIdent c = true := hn c (hc ▸ List.mem_cons_self)
    have hsingle : isSingle c = false := by simp [isSingle, hident]
    have hne {b : UInt8} (hb : isSingle b = true) : c ≠ b := by
      rintro rfl
      rw [hsingle] at hb
      cases hb
    have hlonger (u : Text) : Vocabulary.isPunctuator (prev.text ++ c :: u) = false := by
      rw [Bool.eq_false_iff]
      intro h
      exact hne (isSingle_of_mem_punctuators (List.contains_iff_mem.1 h) c (by simp)) rfl
    have hslash : c ≠ '/'.toUInt8 := hne (by decide)
    have hstar : c ≠ '*'.toUInt8 := hne (by decide)
    simp [hp, hdot, hlonger, hslash, hstar]

end Printer
end CPreprocessor

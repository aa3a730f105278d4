import CPreprocessor.Text.Utf8

/-!
Decoding looks at the bytes of one character and at nothing after them.
-/

namespace CPreprocessor
namespace Utf8

theorem isTail_of_isSecond {a b : UInt8} (h : isSecond a b = true) : isTail b = true := by
  simp only [isSecond, Bool.and_eq_true] at h
  exact h.1.1.1.1

/-- The bytes of the first character are decoded to it whatever follows them. -/
theorem decode_eq_some {t r : Text} {n : Nat} (h : decode t = some (n, r)) :
    ∃ a u, t = a :: u ++ r ∧ u.length ≤ 3 ∧ (∀ b ∈ u, isTail b = true) ∧
      (a < 0x80 → u = []) ∧ ∀ s, decode (a :: u ++ s) = some (n, s) := by
  cases t with
  | nil => cases h
  | cons a t =>
      simp only [decode] at h
      split at h
      next ha =>
        cases h
        refine ⟨a, [], rfl, by simp, by simp, fun _ => rfl, fun s => ?_⟩
        simp only [List.cons_append, decode, if_pos ha]
        rfl
      next ha =>
        split at h
        next ha₂ =>
          split at h
          next b t =>
            split at h
            next hb =>
              cases h
              refine ⟨a, [b], rfl, by simp, by simp [hb], fun h => absurd h ha, fun s => ?_⟩
              simp only [List.cons_append, decode, if_neg ha, if_pos ha₂, if_pos hb]
              rfl
            next => cases h
          next => cases h
        next ha₂ =>
          split at h
          next ha₃ =>
            split at h
            next b c t =>
              split at h
              next hb =>
                cases h
                have ht := Bool.and_eq_true_iff.1 hb
                refine ⟨a, [b, c], rfl, by simp, by simp [isTail_of_isSecond ht.1, ht.2],
                  fun h => absurd h ha, fun s => ?_⟩
                simp only [List.cons_append, decode, if_neg ha, if_neg ha₂,
                  if_pos ha₃, if_pos hb]
                rfl
              next => cases h
            next => cases h
          next ha₃ =>
            split at h
            next ha₄ =>
              split at h
              next b c d t =>
                split at h
                next hb =>
                  cases h
                  have ht := Bool.and_eq_true_iff.1 hb
                  have ht' := Bool.and_eq_true_iff.1 ht.1
                  refine ⟨a, [b, c, d], rfl, by simp,
                    by simp [isTail_of_isSecond ht'.1, ht'.2, ht.2],
                    fun h => absurd h ha, fun s => ?_⟩
                  simp only [List.cons_append, decode, if_neg ha, if_neg ha₂, if_neg ha₃,
                    if_pos ha₄, if_pos hb]
                  rfl
                next => cases h
              next => cases h
            next => cases h

/-- A text that is UTF-8 begins with a character, and what follows is UTF-8. -/
theorem exists_decode_of_valid {a : UInt8} {t : Text} (h : valid (a :: t) = true) :
    ∃ n r, decode (a :: t) = some (n, r) ∧ valid r = true := by
  rw [valid, chunks] at h
  split at h
  · rename_i n r hd
    rw [List.all_cons, Bool.true_and] at h
    exact ⟨n, r, hd, h⟩
  · cases h

theorem not_lt_of_isTail {b : UInt8} (h : isTail b = true) : ¬b < 0x80 := by
  simp only [isTail, Bool.and_eq_true, decide_eq_true_eq] at h
  exact UInt8.not_lt.2 h.1

theorem not_isTail_of_lt {b : UInt8} (h : b < 0x80) : isTail b = false :=
  Bool.eq_false_iff.2 fun hb => not_lt_of_isTail hb h

theorem not_isTail_of_decode {a : UInt8} {t : Text} (h : (decode (a :: t)).isSome = true) :
    isTail a = false := by
  rw [Bool.eq_false_iff]
  intro ha
  have hlow : ¬a < 0x80 := not_lt_of_isTail ha
  simp only [isTail, Bool.and_eq_true, decide_eq_true_eq] at ha
  have hlead (c : UInt8) (hc : 0xbf < c) (b : Bool) : (decide (c ≤ a) && b) = false := by
    rw [decide_eq_false (UInt8.not_le.2 (UInt8.lt_of_le_of_lt ha.2 hc)), Bool.false_and]
  simp [decode, hlow, hlead] at h

/-- UTF-8 text may be cut after an ASCII byte, and before a byte that continues no character. -/
theorem valid_of_append {a b : Text} (h : valid (a ++ b) = true)
    (hc : (∀ x ∈ a.getLast?, x < 0x80) ∨ ∀ y ∈ b.head?, isTail y = false) :
    valid b = true := by
  induction hn : a.length using Nat.strongRecOn generalizing a with
  | ind n ih =>
      cases a with
      | nil => exact h
      | cons x a =>
          replace h : valid (x :: (a ++ b)) = true := h
          obtain ⟨n, r, hd, hr⟩ := exists_decode_of_valid h
          obtain ⟨c, u, hu, -, htail, hascii, -⟩ := decode_eq_some hd
          rw [← List.cons_append] at hu
          obtain ⟨v, hv, hvr⟩ | ⟨v, hv, rfl⟩ := List.append_eq_append_iff.1 hu
          · cases v with
            | nil =>
                obtain rfl : b = r := hvr
                exact hr
            | cons y v =>
                -- the cut would lie inside the first character
                obtain ⟨rfl, rfl⟩ := List.cons.inj hv
                obtain hc | hc := hc
                · obtain rfl | ⟨a, z, rfl⟩ := List.eq_nil_or_concat a
                  · exact absurd (hascii (hc c rfl)) (List.cons_ne_nil y v)
                  · have hz := hc z <| by
                      rw [List.concat_eq_append, ← List.cons_append]
                      exact List.getLast?_concat
                    exact absurd hz (not_lt_of_isTail (htail z (by simp)))
                · have hy := hc y (by rw [hvr]; rfl)
                  simp [htail y (by simp)] at hy
          · refine ih v.length ?_ hr (hc.imp_left fun hc z hz => hc z ?_) rfl
            · rw [← hn, hv, List.length_append, List.length_cons]
              omega
            · rw [hv, List.getLast?_append, hz]
              rfl

end Utf8
end CPreprocessor

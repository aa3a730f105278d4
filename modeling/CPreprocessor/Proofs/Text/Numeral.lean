import CPreprocessor.Proofs.Text.Byte
import CPreprocessor.Text.Decimal
import Mathlib.Algebra.Group.Nat.Defs

/-!
Numerals against the numbers they denote. A digit added to a numeral multiplies its number by the
base and adds the digit; a numeral is read as the number it denotes, if that is below the limit.
The decimal numeral of a number denotes it.
-/

namespace CPreprocessor
namespace Text

/-- A digit of a base. -/
def IsDigit (base : Nat) (b : UInt8) (d : Nat) : Prop :=
  Byte.digitValue? b = some d ∧ d < base

theorem exists_isDigit_iff {base : Nat} {b : UInt8} :
    (∃ d, IsDigit base b d) ↔ (Byte.digitValue? b).any (· < base) = true := by
  simp only [IsDigit, Option.any_eq_true, decide_eq_true_eq]

/-- `Denotes base t n` says that `t` is a numeral of `base` for the number `n`. -/
inductive Denotes (base : Nat) : Text → Nat → Prop where
  | digit {b : UInt8} {d : Nat} : IsDigit base b d → Denotes base [b] d
  | append {t : Text} {n : Nat} {b : UInt8} {d : Nat} : Denotes base t n → IsDigit base b d →
      Denotes base (t ++ [b]) (n * base + d)

section

variable {base limit n m : Nat} {t : Text}

theorem numeralFrom_cons {b : UInt8} {d : Nat} (hd : IsDigit base b d) (t : Text) :
    numeralFrom base limit n (b :: t) =
      if limit ≤ n * base + d then .error .tooLarge
      else numeralFrom base limit (n * base + d) t := by
  simp only [numeralFrom, hd.1, if_neg (Nat.not_le.2 hd.2)]

theorem isDigit_of_numeralFrom {b : UInt8} (h : numeralFrom base limit n (b :: t) = .ok m) :
    ∃ d, IsDigit base b d ∧ n * base + d < limit ∧
      numeralFrom base limit (n * base + d) t = .ok m := by
  simp only [numeralFrom] at h
  split at h
  · cases h
  · rename_i d hd
    split at h
    · cases h
    · rename_i hbase
      split at h
      · cases h
      · exact ⟨d, ⟨hd, Nat.lt_of_not_le hbase⟩, Nat.lt_of_not_le ‹_›, h⟩

/-- Reading on from a numeral gives a longer one. -/
theorem denotes_of_numeralFrom {s : Text} (hs : Denotes base s n) (hn : n < limit)
    (h : numeralFrom base limit n t = .ok m) : Denotes base (s ++ t) m ∧ m < limit := by
  induction t generalizing s n with
  | nil =>
      cases h
      rw [List.append_nil]
      exact ⟨hs, hn⟩
  | cons b t ih =>
      obtain ⟨d, hd, hlt, h⟩ := isDigit_of_numeralFrom h
      rw [List.append_cons]
      exact ih (hs.append hd) hlt h

theorem numeralFrom_append (s t : Text) :
    numeralFrom base limit n (s ++ t) =
      (numeralFrom base limit n s).bind fun m => numeralFrom base limit m t := by
  induction s generalizing n with
  | nil => rfl
  | cons b s ih =>
      simp only [List.cons_append, numeralFrom]
      split
      · rfl
      · split
        · rfl
        · split
          · rfl
          · exact ih

theorem Denotes.ne_nil (h : Denotes base t n) : t ≠ [] := by
  cases h <;> simp

theorem Denotes.numeralFrom (h : Denotes base t n) (hn : n < limit) :
    numeralFrom base limit 0 t = .ok n := by
  induction h with
  | digit hd =>
      rw [numeralFrom_cons hd, Nat.zero_mul, Nat.zero_add, if_neg (Nat.not_le.2 hn)]
      rfl
  | @append t n b d ht hd ih =>
      have hle : n ≤ n * base := Nat.le_mul_of_pos_right n (Nat.zero_lt_of_lt hd.2)
      rw [numeralFrom_append, ih (by omega)]
      change Text.numeralFrom base limit n [b] = _
      rw [numeralFrom_cons hd, if_neg (Nat.not_le.2 hn)]
      rfl

theorem numeral_eq_ok_iff : numeral base limit t = .ok n ↔ Denotes base t n ∧ n < limit := by
  constructor
  · intro h
    cases t with
    | nil => cases h
    | cons b t =>
        obtain ⟨d, hd, hlt, h⟩ := isDigit_of_numeralFrom h
        rw [Nat.zero_mul, Nat.zero_add] at hlt h
        exact denotes_of_numeralFrom (.digit hd) hlt h
  · rintro ⟨h, hn⟩
    cases t with
    | nil => exact absurd rfl h.ne_nil
    | cons b t => exact h.numeralFrom hn

theorem Denotes.unique (h : Denotes base t n) (h' : Denotes base t m) : n = m := by
  have hn : numeral base (n + m + 1) t = .ok n := numeral_eq_ok_iff.2 ⟨h, by omega⟩
  have hm : numeral base (n + m + 1) t = .ok m := numeral_eq_ok_iff.2 ⟨h', by omega⟩
  exact Except.ok.inj (hn.symm.trans hm)

/-- A numeral that is too large is not read. -/
theorem Denotes.numeral_eq_error (h : Denotes base t n) (hn : limit ≤ n) :
    ∃ e, numeral base limit t = .error e := by
  cases hm : numeral base limit t with
  | error e => exact ⟨e, rfl⟩
  | ok m =>
      obtain ⟨h', hlt⟩ := numeral_eq_ok_iff.1 hm
      exact absurd (h.unique h') (by omega)

theorem Denotes.isDigit (h : Denotes base t n) : ∀ b ∈ t, ∃ d, IsDigit base b d := by
  induction h with
  | digit hd => exact List.forall_mem_singleton.2 ⟨_, hd⟩
  | append _ hd ih =>
      intro b hb
      obtain hb | hb := List.mem_append.1 hb
      · exact ih b hb
      · rw [List.mem_singleton.1 hb]
        exact ⟨_, hd⟩

theorem Denotes.lt_pow_length (h : Denotes base t n) : n < base ^ t.length := by
  induction h with
  | digit hd =>
      rw [List.length_singleton, Nat.pow_one]
      exact hd.2
  | @append t n b d _ hd ih =>
      rw [List.length_append, List.length_singleton, Nat.pow_succ]
      calc n * base + d < n * base + base := Nat.add_lt_add_left hd.2 _
        _ = (n + 1) * base := (Nat.succ_mul n base).symm
        _ ≤ base ^ t.length * base := Nat.mul_le_mul_right base ih

theorem Denotes.exists_append {s : Text} (hs : Denotes base s n)
    (h : ∀ b ∈ t, ∃ d, IsDigit base b d) : ∃ m, Denotes base (s ++ t) m := by
  induction t generalizing s n with
  | nil => exact ⟨n, by rwa [List.append_nil]⟩
  | cons b t ih =>
      obtain ⟨⟨d, hd⟩, h⟩ := List.forall_mem_cons.1 h
      rw [List.append_cons]
      exact ih (hs.append hd) h

/-- Digits in a row denote a number. -/
theorem exists_denotes (hne : t ≠ []) (h : ∀ b ∈ t, ∃ d, IsDigit base b d) :
    ∃ n, Denotes base t n := by
  cases t with
  | nil => exact absurd rfl hne
  | cons b t =>
      obtain ⟨⟨d, hd⟩, h⟩ := List.forall_mem_cons.1 h
      exact (Denotes.digit hd).exists_append h

end

section Decimal

theorem isDigit_digit {d : Nat} (h : d < 10) : IsDigit 10 (digit d) d := by
  have hall : ∀ d < 10, Byte.digitValue? (digit d) = some d := by decide
  exact ⟨hall d h, h⟩

theorem denotes_decimal (n : Nat) : Denotes 10 (decimal n) n := by
  fun_induction decimal n with
  | case1 n h => exact .digit (isDigit_digit h)
  | case2 n h ih =>
      have hn := ih.append (isDigit_digit (Nat.mod_lt n (by decide)))
      rwa [Nat.div_add_mod'] at hn

/-- There are no superfluous zeros. -/
theorem eq_zero_of_head?_decimal {n : Nat} (h : (decimal n).head? = some '0'.toUInt8) : n = 0 := by
  fun_induction decimal n with
  | case1 n hn =>
      have hall : ∀ d < 10, digit d = '0'.toUInt8 → d = 0 := by decide
      exact hall n hn (Option.some.inj h)
  | case2 n hn ih =>
      obtain ⟨b, t, ht⟩ := List.exists_cons_of_ne_nil (denotes_decimal (n / 10)).ne_nil
      rw [ht] at h ih
      have := ih h
      omega

theorem isDigit_of_mem_decimal {n : Nat} {b : UInt8} (hb : b ∈ decimal n) :
    Byte.isDigit b = true := by
  have hten := exists_isDigit_iff.1 ((denotes_decimal n).isDigit b hb)
  exact Byte.forall_of_lt (p := fun b => (Byte.digitValue? b).any (· < 10) = true →
    Byte.isDigit b = true) (by decide +kernel) b hten

end Decimal

end Text
end CPreprocessor

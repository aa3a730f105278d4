import CPreprocessor.Proofs.Condition.Nameless
import CPreprocessor.Proofs.Printer.RoundTrip
import Mathlib.Algebra.Group.Int.Defs

/-!
Printed values are conditions. The text of a value is a decimal numeral, with a suffix if the value
is unsigned and behind a sign if it is negative, and as a condition it has the value it was printed
for. The least of the signed values is the exception: the number behind its sign does not fit a
signed word.
-/

namespace CPreprocessor

/-- A text that is read as words without a name has the value of every tree of these words. -/
theorem Condition.evaluate_of_readsAs {u : Text} {ts : List Token} (hr : Printer.ReadsAs u ts)
    (hn : ∀ t ∈ ts, t.kind ≠ .identifier) {T : Table} {v : Value}
    (hv : ∀ us, us.map Token.word = ts.map Token.word →
      ∃ e, Expression.Yields .comma e us ∧ e.run T true = some v) (pos : Pos) :
    (tokenize u).error = none ∧ evaluate T pos (tokenize u).tokens = .ok v := by
  obtain ⟨herror, hwords⟩ := hr.tokenize
  obtain ⟨e, hy, hrun⟩ := hv _ hwords
  refine ⟨herror, evaluate_of_no_name (fun t ht hk => ?_) hy hrun pos⟩
  have hsolid : t ∈ Token.solid (tokenize u).tokens :=
    List.mem_filter.2 ⟨ht, by simp [Token.isSpace, hk]⟩
  have hword : t.word ∈ ts.map Token.word := hwords ▸ List.mem_map_of_mem hsolid
  obtain ⟨t', ht', heq⟩ := List.mem_map.1 hword
  exact hn t' ht' ((Prod.mk.inj heq).1.trans hk)

section Numeral

open Text (decimal)
open Constant (suffixes wordCount)

variable {n : Nat} {s : Text} (hs : s.map Byte.toLower ∈ suffixes)
include hs

theorem Constant.isIdent_of_mem_decimal : ∀ b ∈ decimal n ++ s, Byte.isIdent b = true := by
  intro b hb
  obtain hb | hb := List.mem_append.1 hb
  · exact Byte.isIdent_of_isDigit (Text.isDigit_of_mem_decimal hb)
  · exact Byte.forall_of_lt (p := fun b => isSuffixByte b = true → Byte.isIdent b = true)
      (by decide +kernel) b (isSuffixByte_of_suffixes hs b hb)

/-- A decimal numeral with a suffix is one number. -/
theorem Constant.spells_decimal : Spells .number (decimal n ++ s) := by
  have hident := isIdent_of_mem_decimal (n := n) hs
  obtain ⟨b, r, hr⟩ := List.exists_cons_of_ne_nil (Text.denotes_decimal n).ne_nil
  have hb : Byte.isDigit b = true := Text.isDigit_of_mem_decimal (hr ▸ List.mem_cons_self)
  rw [hr, List.cons_append] at hident ⊢
  refine .number ⟨?_, Spelling.numberTail_of_isIdent (List.forall_mem_cons.1 hident).2⟩
  cases r ++ s with
  | nil => exact hb
  | cons c u => exact Bool.or_eq_true_iff.2 (.inl hb)

theorem Constant.number_decimal (hn : n < 2 ^ 64) {t : Token} (ht : t.text = decimal n ++ s) :
    number t = .ok { word := BitVec.ofNat 64 n
                     unsigned := wordCount ≤ 2 * n ||
                       (s.map Byte.toLower).contains 'u'.toUInt8 } := by
  have hbody : Body (decimal n) n := by
    refine .decimal (Text.denotes_decimal n) fun hzero => ?_
    rw [Text.eq_zero_of_head?_decimal hzero]
    decide +kernel
  have hfilter : (decimal n ++ s).filter (· != Byte.apostrophe) = decimal n ++ s :=
    List.filter_eq_self.2 fun b hb =>
      bne_iff_ne.2 (Byte.of_isIdent (isIdent_of_mem_decimal hs b hb)).2.2.2.2.1
  refine Spelled.number ⟨⟨decimal n, ?_, hbody⟩, hs, hn⟩
  rw [ht, hfilter]

namespace Condition

theorem evaluate_decimal (hn : n < 2 ^ 64) (T : Table) (pos : Pos) :
    (tokenize (decimal n ++ s)).error = none ∧
      evaluate T pos (tokenize (decimal n ++ s)).tokens =
        .ok { word := BitVec.ofNat 64 n
              unsigned := wordCount ≤ 2 * n || (s.map Byte.toLower).contains 'u'.toUInt8 } := by
  let k : Token := { kind := .number, text := decimal n ++ s }
  have hr : Printer.ReadsAs (decimal n ++ s) [k] := by
    have h : Printer.ReadsAs (Printer.render [k]) [k] :=
      Printer.readsAs_render (List.forall_mem_singleton.2 (Constant.spells_decimal hs))
    rwa [show Printer.render [k] = decimal n ++ s from List.append_nil _] at h
  refine evaluate_of_readsAs hr (by simp [k]) (fun us hus => ?_) pos
  obtain ⟨t, rfl, ht⟩ := List.map_eq_singleton_iff.1 hus
  obtain ⟨hkind, htext⟩ := Prod.mk.inj ht
  refine ⟨.number t, .last (.single (.ofNumber hkind (by decide))), ?_⟩
  simp only [Expression.Tree.run, Constant.number_decimal hs hn htext]
  rfl

theorem evaluate_minus_decimal (hn : n < 2 ^ 64) (T : Table) (pos : Pos) :
    (tokenize ('-'.toUInt8 :: (decimal n ++ s))).error = none ∧
      evaluate T pos (tokenize ('-'.toUInt8 :: (decimal n ++ s))).tokens =
        .ok { word := -BitVec.ofNat 64 n
              unsigned := wordCount ≤ 2 * n || (s.map Byte.toLower).contains 'u'.toUInt8 } := by
  let m : Token := { kind := .punctuator, text := ascii "-" }
  let k : Token := { kind := .number, text := decimal n ++ s }
  -- The printer leaves no space between the two, so that the text is what it prints for them.
  have hr : Printer.ReadsAs ('-'.toUInt8 :: (decimal n ++ s)) [m, k] := by
    have h : Printer.ReadsAs (Printer.render [m, k]) [m, k] :=
      Printer.readsAs_render (List.forall_mem_cons.2 ⟨.single (by decide),
        List.forall_mem_singleton.2 (Constant.spells_decimal hs)⟩)
    have hfuse : Printer.wouldFuse m k = false :=
      Printer.wouldFuse_of_isIdent rfl (by decide) (Constant.isIdent_of_mem_decimal hs)
    simp only [Printer.render, Printer.pieces, Printer.piecesAfter, Printer.piece, hfuse,
      Bool.false_eq_true, if_false, List.flatten_cons, List.flatten_nil, List.append_nil] at h
    exact h
  refine evaluate_of_readsAs hr (by simp [m, k]) (fun us hus => ?_) pos
  obtain ⟨o, us, rfl, ho, hus⟩ := List.map_eq_cons_iff.1 hus
  obtain ⟨t, rfl, ht⟩ := List.map_eq_singleton_iff.1 hus
  obtain ⟨hkind, htext⟩ := Prod.mk.inj ht
  obtain ⟨hokind, hotext⟩ := Prod.mk.inj ho
  have hminus : Expression.Stands (ascii "-") o := by
    refine .punctuator ?_
    rw [Token.isPunct, hokind, hotext]
    rfl
  have hyields : Expression.Yields (.binary 11) (.unary .minus (.number t)) [o, t] :=
    .tightest (by decide) (.applied .minus hminus (.plain (.number hkind)))
  refine ⟨_, .last (.single (hyields.loosen (by decide) (by decide))), ?_⟩
  simp only [Expression.Tree.run, Constant.number_decimal hs hn htext]
  rfl

end Condition

end Numeral

theorem Condition.evaluate_signedDecimal {i : Int} (hi : i.natAbs < 2 ^ 64) (T : Table)
    (pos : Pos) :
    (tokenize (Text.signedDecimal i)).error = none ∧
      evaluate T pos (tokenize (Text.signedDecimal i)).tokens =
        .ok { word := BitVec.ofInt 64 i, unsigned := Constant.wordCount ≤ 2 * i.natAbs } := by
  cases i with
  | ofNat n =>
      have h := evaluate_decimal (s := []) (by decide) hi T pos
      simp only [Int.natAbs_ofNat'] at h
      simpa [Text.signedDecimal] using h
  | negSucc n =>
      have h := evaluate_minus_decimal (s := []) (by decide) hi T pos
      have hword : BitVec.ofInt 64 (Int.negSucc n) = -BitVec.ofNat 64 (n + 1) := by
        rw [Int.negSucc_eq, BitVec.ofInt_neg, ← BitVec.ofInt_natCast]
        rfl
      rw [hword]
      simpa [Text.signedDecimal] using h

/-- The printed text of a value is read back as the value, whatever macros are defined. The least
signed value comes back unsigned, because its digits alone do not fit a signed word. -/
theorem Value.evaluate_text (T : Table) (pos : Pos) (v : Value) :
    (tokenize v.text).error = none ∧
      Condition.evaluate T pos (tokenize v.text).tokens =
        .ok (if v.unsigned = false ∧ v.word.toInt = -2 ^ 63 then { v with unsigned := true }
          else v) := by
  obtain ⟨w, unsigned⟩ := v
  cases unsigned with
  | true =>
      have h := Condition.evaluate_decimal (n := w.toNat) (s := ascii "u") (by decide) w.isLt T pos
      have hu : ((ascii "u").map Byte.toLower).contains 'u'.toUInt8 = true := by decide
      rw [BitVec.ofNat_toNat, BitVec.setWidth_eq, hu, Bool.or_true] at h
      simpa [Value.text] using h
  | false =>
      have hlt := BitVec.two_mul_toInt_lt (x := w)
      have hle := BitVec.le_two_mul_toInt (x := w)
      have h := Condition.evaluate_signedDecimal (i := w.toInt) (by omega) T pos
      have hleast : Constant.wordCount ≤ 2 * w.toInt.natAbs ↔ w.toInt = -2 ^ 63 := by
        rw [Constant.wordCount_eq]
        omega
      rw [BitVec.ofInt_toInt] at h
      by_cases hw : w.toInt = -2 ^ 63
      · rw [if_pos ⟨rfl, hw⟩]
        rwa [decide_eq_true (hleast.2 hw)] at h
      · rw [if_neg fun hand => hw hand.2]
        rwa [decide_eq_false fun hle => hw (hleast.1 hle)] at h

end CPreprocessor

import CPreprocessor.Condition.Value
import Mathlib.Data.Int.Bitwise
import Mathlib.Data.Int.ModEq

/-!
The operators of conditions on words against the same operators on numbers of any size. An
arithmetic operation reads both operands with the signedness they have in common and holds
the exact result up to a multiple of the number of words; comparisons hold the exact answer. A
shift multiplies or divides by a power of two, for every count that is not negative, with one
exception: an unsigned word with its highest bit set, shifted to the right by its width or more.
-/

namespace CPreprocessor

/-- What an operation on numbers gives. -/
inductive Exact where
  | number (n : Int)
  | truth (b : Bool)
deriving DecidableEq, Repr

/-- The operators on numbers of any size, negative ones with the bits of an unbounded two's
complement. A quotient is cut toward zero. There is no quotient by zero, and no shift: the
operands of shifts have no common signedness. -/
def BinaryOp.ideal? : BinaryOp → Int → Int → Option Exact
  | or, a, b => some (.truth (a != 0 || b != 0))
  | and, a, b => some (.truth (a != 0 && b != 0))
  | bitOr, a, b => some (.number (Int.lor a b))
  | bitXor, a, b => some (.number (Int.xor a b))
  | bitAnd, a, b => some (.number (Int.land a b))
  | eq, a, b => some (.truth (a = b))
  | ne, a, b => some (.truth (a ≠ b))
  | lt, a, b => some (.truth (a < b))
  | gt, a, b => some (.truth (b < a))
  | le, a, b => some (.truth (a ≤ b))
  | ge, a, b => some (.truth (b ≤ a))
  | shl, _, _ | shr, _, _ => none
  | add, a, b => some (.number (a + b))
  | sub, a, b => some (.number (a - b))
  | mul, a, b => some (.number (a * b))
  | div, a, b => if b = 0 then none else some (.number (a.tdiv b))
  | rem, a, b => if b = 0 then none else some (.number (a.tmod b))

section Words

variable {w : Nat}

theorem ofInt_eq_ofInt_iff {a b : Int} :
    BitVec.ofInt w a = BitVec.ofInt w b ↔ a ≡ b [ZMOD 2 ^ w] := by
  have hpos : (0 : Int) < 2 ^ w := Int.pow_pos (by decide)
  have ha := Int.emod_nonneg a hpos.ne'
  have hb := Int.emod_nonneg b hpos.ne'
  rw [BitVec.toNat_eq, BitVec.toNat_ofInt, BitVec.toNat_ofInt, Int.ModEq]
  push_cast
  omega

theorem getLsbD_ofInt (n : Int) (k : Nat) :
    (BitVec.ofInt w n).getLsbD k = (decide (k < w) && n.testBit k) := by
  cases n with
  | ofNat n => exact BitVec.getLsbD_ofNat w n k
  | negSucc n =>
      rw [BitVec.ofInt_negSucc_eq_not_ofNat, BitVec.getLsbD_not, BitVec.getLsbD_ofNat]
      by_cases h : k < w <;> simp [h, Int.testBit]

theorem ofInt_lor (a b : Int) :
    BitVec.ofInt w (Int.lor a b) = BitVec.ofInt w a ||| BitVec.ofInt w b := by
  refine BitVec.eq_of_getLsbD_eq fun k hk => ?_
  simp only [BitVec.getLsbD_or, getLsbD_ofInt, Int.testBit_lor, hk, decide_true, Bool.true_and]

theorem ofInt_xor (a b : Int) :
    BitVec.ofInt w (Int.xor a b) = BitVec.ofInt w a ^^^ BitVec.ofInt w b := by
  refine BitVec.eq_of_getLsbD_eq fun k hk => ?_
  simp only [BitVec.getLsbD_xor, getLsbD_ofInt, Int.testBit_lxor, hk, decide_true, Bool.true_and]

theorem ofInt_land (a b : Int) :
    BitVec.ofInt w (Int.land a b) = BitVec.ofInt w a &&& BitVec.ofInt w b := by
  refine BitVec.eq_of_getLsbD_eq fun k hk => ?_
  simp only [BitVec.getLsbD_and, getLsbD_ofInt, Int.testBit_land, hk, decide_true, Bool.true_and]

theorem ofInt_two_pow (n : Nat) : BitVec.ofInt w (2 ^ n) = BitVec.twoPow w n := by
  refine BitVec.eq_of_toNat_eq ?_
  rw [BitVec.toNat_twoPow, BitVec.toNat_ofInt]
  norm_cast

end Words

namespace Value

/-- The number a word denotes with a given signedness. -/
def readAs (unsigned : Bool) (v : Value) : Int :=
  if unsigned then v.word.toNat else v.word.toInt

/-- A value of signedness `u` holds a number up to a multiple of the number of words, and a
truth value as signed one or zero. -/
def Holds (u : Bool) (v : Value) : Exact → Prop
  | .number n => v.unsigned = u ∧ v.toInt ≡ n [ZMOD 2 ^ 64]
  | .truth b => v.unsigned = false ∧ v.toInt = if b then 1 else 0

@[simp] theorem ofInt_readAs (u : Bool) (v : Value) : BitVec.ofInt 64 (v.readAs u) = v.word := by
  cases u with
  | false => exact BitVec.ofInt_toInt
  | true => exact (BitVec.ofInt_natCast 64 _).trans (BitVec.ofNat_toNat 64 v.word)

theorem toInt_modEq_iff {v : Value} {n : Int} :
    v.toInt ≡ n [ZMOD 2 ^ 64] ↔ v.word = BitVec.ofInt 64 n := by
  rw [← ofInt_eq_ofInt_iff]
  exact Eq.congr_left (ofInt_readAs v.unsigned v)

theorem holds_number {u : Bool} {word : BitVec 64} {n : Int} (h : word = BitVec.ofInt 64 n) :
    Holds u { word, unsigned := u } (.number n) :=
  ⟨rfl, toInt_modEq_iff.2 h⟩

theorem eq_of_holds {u : Bool} {v : Value} {n : Int} (h : v.Holds u (.number n)) :
    v = { word := BitVec.ofInt 64 n, unsigned := u } := by
  obtain ⟨rfl, hn⟩ := h
  rw [← toInt_modEq_iff.1 hn]

theorem holds_truth {u b : Bool} {p : Bool} (h : p = b) : Holds u (.ofBool p) (.truth b) := by
  subst h
  cases p <;> exact ⟨rfl, rfl⟩

variable (u : Bool) (l r : Value)

theorem readAs_eq_iff : l.readAs u = r.readAs u ↔ l.word = r.word := by
  constructor
  · intro h
    rw [← ofInt_readAs u l, h, ofInt_readAs]
  · intro h
    rw [readAs, readAs, h]

theorem readAs_eq_zero_iff : r.readAs u = 0 ↔ r.word = 0 := by
  have hzero : zero.readAs u = 0 := by cases u <;> rfl
  rw [← hzero]
  exact readAs_eq_iff u r zero

theorem isTrue_eq : r.isTrue = (r.readAs u != 0) := by
  rw [Bool.eq_iff_iff, isTrue, bne_iff_ne, bne_iff_ne, Ne, Ne, readAs_eq_zero_iff]

theorem of_ideal?_quotient {u : Bool} {r : Value} {q : Int} {x : Exact}
    (h : (if r.readAs u = 0 then none else some (Exact.number q)) = some x) :
    r.isTrue = true ∧ x = .number q := by
  by_cases hr : r.readAs u = 0
  · rw [if_pos hr] at h
    cases h
  · rw [if_neg hr] at h
    cases h
    exact ⟨(isTrue_eq u r).trans (bne_iff_ne.2 hr), rfl⟩

theorem less_eq : less u l r = decide (l.readAs u < r.readAs u) := by
  cases u with
  | false => exact BitVec.slt_eq_decide
  | true =>
      rw [less, if_pos rfl, BitVec.ult_eq_decide]
      exact decide_eq_decide.2 Int.ofNat_lt.symm

theorem quotient_eq : (divide u l r).1 = BitVec.ofInt 64 ((l.readAs u).tdiv (r.readAs u)) := by
  cases u with
  | false =>
      refine BitVec.eq_of_toInt_eq ?_
      rw [BitVec.toInt_ofInt]
      exact BitVec.toInt_sdiv l.word r.word
  | true =>
      refine BitVec.eq_of_toNat_eq ?_
      change (l.word / r.word).toNat =
        (BitVec.ofInt 64 ((l.word.toNat : Int).tdiv r.word.toNat)).toNat
      rw [← Int.ofNat_tdiv, BitVec.ofInt_natCast, BitVec.toNat_ofNat, BitVec.toNat_udiv,
        Nat.mod_eq_of_lt (Nat.lt_of_le_of_lt (Nat.div_le_self _ _) l.word.isLt)]

theorem remainder_eq : (divide u l r).2 = BitVec.ofInt 64 ((l.readAs u).tmod (r.readAs u)) := by
  cases u with
  | false =>
      rw [← BitVec.ofInt_toInt (x := (divide false l r).2)]
      exact congrArg _ (BitVec.toInt_srem l.word r.word)
  | true =>
      refine BitVec.eq_of_toNat_eq ?_
      change (l.word % r.word).toNat =
        (BitVec.ofInt 64 ((l.word.toNat : Int).tmod r.word.toNat)).toNat
      rw [← Int.ofNat_tmod, BitVec.ofInt_natCast, BitVec.toNat_ofNat, BitVec.toNat_umod,
        Nat.mod_eq_of_lt (Nat.lt_of_le_of_lt (Nat.mod_le _ _) l.word.isLt)]

/-- Where an operator is defined on numbers, its result on words holds the one on numbers. -/
theorem holds_apply (op : BinaryOp) {x : Exact} (live : Bool) (pos : Pos)
    (h : op.ideal? (l.readAs (l.unsigned || r.unsigned)) (r.readAs (l.unsigned || r.unsigned)) =
      some x) :
    ∃ v, apply op live pos l r = .ok v ∧ v.Holds (l.unsigned || r.unsigned) x := by
  cases op with
  | shl | shr => cases h
  | or | and =>
      cases h
      refine ⟨_, rfl, holds_truth ?_⟩
      rw [← isTrue_eq, ← isTrue_eq]
  | bitOr =>
      cases h
      exact ⟨_, rfl, holds_number (by rw [ofInt_lor, ofInt_readAs, ofInt_readAs])⟩
  | bitXor =>
      cases h
      exact ⟨_, rfl, holds_number (by rw [ofInt_xor, ofInt_readAs, ofInt_readAs])⟩
  | bitAnd =>
      cases h
      exact ⟨_, rfl, holds_number (by rw [ofInt_land, ofInt_readAs, ofInt_readAs])⟩
  | eq =>
      cases h
      refine ⟨_, rfl, holds_truth ?_⟩
      rw [Bool.eq_iff_iff, beq_iff_eq, decide_eq_true_eq, readAs_eq_iff]
  | ne =>
      cases h
      refine ⟨_, rfl, holds_truth ?_⟩
      rw [Bool.eq_iff_iff, bne_iff_ne, decide_eq_true_eq, Ne, Ne, readAs_eq_iff]
  | lt | gt =>
      cases h
      exact ⟨_, rfl, holds_truth (less_eq _ _ _)⟩
  | le | ge =>
      cases h
      refine ⟨_, rfl, holds_truth ?_⟩
      rw [less_eq, ← decide_not]
      exact decide_eq_decide.2 Int.not_lt
  | add =>
      cases h
      exact ⟨_, rfl, holds_number (by rw [BitVec.ofInt_add, ofInt_readAs, ofInt_readAs])⟩
  | sub =>
      cases h
      refine ⟨_, rfl, holds_number ?_⟩
      rw [Int.sub_eq_add_neg, BitVec.ofInt_add, BitVec.ofInt_neg, ofInt_readAs, ofInt_readAs,
        BitVec.sub_eq_add_neg]
  | mul =>
      cases h
      exact ⟨_, rfl, holds_number (by rw [BitVec.ofInt_mul, ofInt_readAs, ofInt_readAs])⟩
  | div =>
      obtain ⟨hr, rfl⟩ := of_ideal?_quotient h
      rw [apply, if_pos hr]
      exact ⟨_, rfl, holds_number (quotient_eq _ l r)⟩
  | rem =>
      obtain ⟨hr, rfl⟩ := of_ideal?_quotient h
      rw [apply, if_pos hr]
      exact ⟨_, rfl, holds_number (remainder_eq _ l r)⟩

/-- An operator that is no shift fails on nothing but a division by zero, and on that only if
the result counts. -/
theorem apply_eq_error_iff {op : BinaryOp} (hop : op ≠ .shl ∧ op ≠ .shr)
    (live : Bool) (pos : Pos) (e : Error) :
    apply op live pos l r = .error e ↔
      (op = .div ∨ op = .rem) ∧ r.word = 0 ∧ live = true ∧
        e = { fault := .divisionByZero, pos } := by
  cases op with
  | shl => exact absurd rfl hop.1
  | shr => exact absurd rfl hop.2
  | div | rem =>
      simp only [apply]
      by_cases hr : r.word = 0
      · rw [if_neg (by rw [isTrue, hr]; decide)]
        cases live <;> simp [hr, eq_comm]
      · rw [if_pos (show r.isTrue = true from bne_iff_ne.2 hr)]
        exact iff_of_false (fun h => by cases h) fun h => hr h.2.1
  | _ => simp [apply]

/-- Quotient and remainder make up the dividend. -/
theorem quotient_remainder (live : Bool) (pos : Pos) (hr : r.word ≠ 0) :
    ∃ q m, apply .div live pos l r = .ok q ∧ apply .rem live pos l r = .ok m ∧
      q.toInt * r.readAs (l.unsigned || r.unsigned) + m.toInt ≡
        l.readAs (l.unsigned || r.unsigned) [ZMOD 2 ^ 64] := by
  generalize hu : (l.unsigned || r.unsigned) = u
  have hb : ¬r.readAs u = 0 := mt (readAs_eq_zero_iff u r).1 hr
  obtain ⟨q, hq, -, hqn⟩ := holds_apply l r .div live pos (by rw [hu]; exact if_neg hb)
  obtain ⟨m, hm, -, hmn⟩ := holds_apply l r .rem live pos (by rw [hu]; exact if_neg hb)
  refine ⟨q, m, hq, hm, ((hqn.mul_right _).add hmn).trans ?_⟩
  rw [Int.mul_comm, Int.mul_tdiv_add_tmod]

/-- The one quotient that is out of range wraps to the dividend, with no remainder. -/
theorem apply_quotient_wraps (live : Bool) (pos : Pos)
    (hl : l.readAs (l.unsigned || r.unsigned) = -2 ^ 63)
    (hr : r.readAs (l.unsigned || r.unsigned) = -1) :
    apply .div live pos l r = .ok { word := l.word, unsigned := false } ∧
      apply .rem live pos l r = .ok { word := 0, unsigned := false } := by
  have hu : (l.unsigned || r.unsigned) = false := by
    by_contra hu
    rw [Bool.not_eq_false] at hu
    rw [hu, readAs, if_pos rfl] at hr
    omega
  have hword : l.word = BitVec.ofInt 64 (-2 ^ 63) := by rw [← hl, ofInt_readAs]
  obtain ⟨q, hq, hqn⟩ := holds_apply l r .div live pos (by rw [hl, hr]; rfl)
  obtain ⟨m, hm, hmn⟩ := holds_apply l r .rem live pos (by rw [hl, hr]; rfl)
  rw [hq, hm, eq_of_holds hqn, eq_of_holds hmn, hu, hword]
  decide

/-- Arithmetic follows the usual conversions. With the common signedness `u` of the operands and
the numbers `a` and `b` they denote under it, every operator that is no shift holds its exact
result on `a` and `b`; it fails only on a division by zero that counts; quotient and remainder
make up the dividend; and the one quotient that is out of range wraps. -/
theorem apply_of_not_shift (live : Bool) (pos : Pos) (l r : Value) :
    let u := l.unsigned || r.unsigned
    let a := l.readAs u
    let b := r.readAs u
    (∀ op : BinaryOp, op ≠ .shl ∧ op ≠ .shr →
      (∀ x, op.ideal? a b = some x → ∃ v, apply op live pos l r = .ok v ∧ v.Holds u x) ∧
      (op.ideal? a b = none ↔ (op = .div ∨ op = .rem) ∧ b = 0) ∧
      ∀ e, apply op live pos l r = .error e ↔
        (op = .div ∨ op = .rem) ∧ b = 0 ∧ live = true ∧
          e = { fault := .divisionByZero, pos }) ∧
    (b ≠ 0 → ∃ q m, apply .div live pos l r = .ok q ∧ apply .rem live pos l r = .ok m ∧
      q.toInt * b + m.toInt ≡ a [ZMOD 2 ^ 64]) ∧
    (a = -2 ^ 63 → b = -1 →
      apply .div live pos l r = .ok { word := l.word, unsigned := false } ∧
        apply .rem live pos l r = .ok { word := 0, unsigned := false }) := by
  intro u a b
  have hzero : b = 0 ↔ r.word = 0 := readAs_eq_zero_iff u r
  refine ⟨fun op hop => ⟨fun x hx => holds_apply l r op live pos hx, ?_, fun e => ?_⟩,
    fun hb => quotient_remainder l r live pos (mt hzero.2 hb),
    apply_quotient_wraps l r live pos⟩
  · cases op with
    | shl => exact absurd rfl hop.1
    | shr => exact absurd rfl hop.2
    | _ => simp [BinaryOp.ideal?]
  · rw [hzero]
    exact apply_eq_error_iff l r hop live pos e

/-- Minus one is not below unsigned zero. -/
theorem apply_of_not_shift_mixed :
    ∃ v, apply .lt true {} ⟨-1, false⟩ ⟨0, true⟩ = .ok v ∧
      v.Holds true (.truth false) :=
  ((apply_of_not_shift true {} ⟨-1, false⟩ ⟨0, true⟩).1 .lt ⟨by decide, by decide⟩).1
    (.truth false) (by decide)

theorem toInt_shiftLeft (n : Nat) : (l.shiftLeft n).toInt ≡ l.toInt * 2 ^ n [ZMOD 2 ^ 64] := by
  have hword : (l.shiftLeft n).word = l.word <<< n := by
    simp only [shiftLeft]
    split
    · rfl
    · rename_i hn
      exact (BitVec.shiftLeft_eq_zero (Nat.le_of_not_lt hn)).symm
  rw [toInt_modEq_iff, hword, BitVec.shiftLeft_eq_mul_twoPow, BitVec.ofInt_mul, ofInt_two_pow]
  exact congrArg (· * _) (ofInt_readAs l.unsigned l).symm

theorem toInt_shiftLeft_of_le {n : Nat} (hn : 64 ≤ n) : (l.shiftLeft n).toInt = 0 := by
  rw [shiftLeft, if_neg (Nat.not_lt.2 hn)]
  cases hu : l.unsigned <;> simp [toInt]

/-- A division by a power that is too large leaves nothing but the sign. -/
theorem ediv_two_pow_of_le {x : Int} {k n : Nat} (hx : -2 ^ k ≤ x) (hx' : x < 2 ^ k)
    (hn : k ≤ n) :
    x / 2 ^ n = if x < 0 then -1 else 0 := by
  have hpow : (2 : Int) ^ k ≤ 2 ^ n := mod_cast Nat.pow_le_pow_right (by decide) hn
  split
  · exact Int.ediv_eq_neg_one_of_neg_of_le ‹_› (by omega)
  · exact Int.ediv_eq_zero_of_lt (by omega) (by omega)

theorem toInt_sshiftRight_min (word : BitVec 64) (n : Nat) :
    (word.sshiftRight (min n 63)).toInt = word.toInt / 2 ^ n := by
  have hmin : (word.sshiftRight (min n 63)).toInt = word.toInt / 2 ^ min n 63 := by
    rw [BitVec.toInt_sshiftRight, Int.shiftRight_eq_div_pow]
    norm_cast
  rw [hmin]
  obtain hn | hn := Nat.le_total n 63
  · rw [Nat.min_eq_left hn]
  · rw [Nat.min_eq_right hn, ediv_two_pow_of_le word.le_toInt word.toInt_lt (Nat.le_refl 63),
      ediv_two_pow_of_le word.le_toInt word.toInt_lt hn]

theorem toInt_shiftRight_of_signed (hu : l.unsigned = false) (n : Nat) :
    (l.shiftRight n).toInt = l.toInt / 2 ^ n := by
  have hw : (l.shiftRight n).word = l.word.sshiftRight (min n 63) := by simp [shiftRight, hu]
  have ht (v : Value) (hv : v.unsigned = false) : v.toInt = v.word.toInt := by simp [toInt, hv]
  rw [ht _ hu, ht (l.shiftRight n) hu, hw, toInt_sshiftRight_min]

theorem toInt_of_unsigned {v : Value} (hu : v.unsigned = true) : v.toInt = v.word.toNat :=
  if_pos hu

theorem toInt_shiftRight_of_lt (hu : l.unsigned = true) {n : Nat} (hn : n < 64) :
    (l.shiftRight n).toInt = l.toInt / 2 ^ n := by
  have hw : (l.shiftRight n).word = l.word >>> n := by simp [shiftRight, hu, hn]
  rw [toInt_of_unsigned hu, toInt_of_unsigned (v := l.shiftRight n) hu, hw,
    BitVec.toNat_ushiftRight, Nat.shiftRight_eq_div_pow]
  norm_cast

/-- Behind its last bit an unsigned word is filled with its highest one. -/
theorem toInt_shiftRight_of_le (hu : l.unsigned = true) {n : Nat} (hn : 64 ≤ n) :
    (l.shiftRight n).toInt = if 2 ^ 63 ≤ l.toInt then 2 ^ 64 - 1 else 0 := by
  have hw : (l.shiftRight n).word = l.word.sshiftRight (min n 63) := by
    simp [shiftRight, hu, Nat.not_lt.2 hn]
  have hshift := toInt_sshiftRight_min l.word n
  rw [ediv_two_pow_of_le l.word.le_toInt l.word.toInt_lt (by omega), ← hw] at hshift
  rw [toInt_of_unsigned hu, toInt_of_unsigned (v := l.shiftRight n) hu]
  have hlt := l.word.isLt
  rw [BitVec.toInt_eq_toNat_cond, BitVec.toInt_eq_toNat_cond] at hshift
  split at hshift <;> split at hshift <;> split <;> omega

theorem toInt_shiftRight_iff (n : Nat) :
    (l.shiftRight n).toInt = l.toInt / 2 ^ n ↔
      ¬(l.unsigned = true ∧ 2 ^ 63 ≤ l.toInt ∧ 64 ≤ n) := by
  cases hu : l.unsigned with
  | false => simp [toInt_shiftRight_of_signed l hu n]
  | true =>
      by_cases hn : n < 64
      · simp [toInt_shiftRight_of_lt l hu hn, hn]
      · have hle : 64 ≤ n := Nat.le_of_not_lt hn
        have hpow : (2 : Int) ^ 64 ≤ 2 ^ n := mod_cast Nat.pow_le_pow_right (by decide) hle
        have hlt := l.word.isLt
        have hint := toInt_of_unsigned hu
        rw [toInt_shiftRight_of_le l hu hle, Int.ediv_eq_zero_of_lt (by omega) (by omega)]
        split
        · exact iff_of_false (by decide) fun h => h ⟨rfl, ‹_›, hle⟩
        · exact iff_of_true rfl fun h => ‹¬_› h.2.1

theorem apply_shift_eq {l r : Value} (hr : 0 ≤ r.toInt) (live : Bool) (pos : Pos) :
    apply .shl live pos l r = .ok (l.shiftLeft r.word.toNat) ∧
      apply .shr live pos l r = .ok (l.shiftRight r.word.toNat) := by
  have hcount : ¬(r.unsigned = false ∧ r.word.toInt < 0) := by
    rintro ⟨hu, hneg⟩
    rw [toInt, hu] at hr
    exact Int.not_lt.2 hr hneg
  simp only [apply, shift, if_neg hcount]
  exact ⟨rfl, rfl⟩

/-- A shift by a count that is not negative multiplies by a power of two, up to a multiple of the
number of words, or divides by it and rounds down. Only an unsigned word with its highest bit set
that is shifted to the right by its width or more is not divided. -/
theorem apply_shift {l r : Value} (hr : 0 ≤ r.toInt) (live : Bool) (pos : Pos) :
    (∃ v, apply .shl live pos l r = .ok v ∧ v.unsigned = l.unsigned ∧
      v.toInt ≡ l.toInt * 2 ^ r.word.toNat [ZMOD 2 ^ 64] ∧
      (64 ≤ r.word.toNat → v.toInt = 0)) ∧
    ∃ v, apply .shr live pos l r = .ok v ∧ v.unsigned = l.unsigned ∧
      (v.toInt = l.toInt / 2 ^ r.word.toNat ↔
        ¬(l.unsigned = true ∧ 2 ^ 63 ≤ l.toInt ∧ 64 ≤ r.word.toNat)) ∧
      (64 ≤ r.word.toNat → l.toInt < 2 ^ 63 → v.toInt = if l.toInt < 0 then -1 else 0) := by
  obtain ⟨hleft, hright⟩ := apply_shift_eq (l := l) hr live pos
  refine ⟨⟨_, hleft, rfl, toInt_shiftLeft l _, toInt_shiftLeft_of_le l⟩,
    ⟨_, hright, rfl, toInt_shiftRight_iff l _, fun hn hl => ?_⟩⟩
  have hfloor := (toInt_shiftRight_iff l r.word.toNat).2 fun h => Int.not_lt.2 h.2.1 hl
  have hlow : -2 ^ 63 ≤ l.toInt := by
    rw [toInt]
    split
    · omega
    · exact l.word.le_toInt
  rw [hfloor, ediv_two_pow_of_le hlow hl (by omega)]

/-- Minus sixteen by two, to the right and to the left. -/
theorem apply_shift_negative :
    0 ≤ (⟨2, false⟩ : Value).toInt ∧
      (∃ v, apply .shr true {} ⟨-16, false⟩ ⟨2, false⟩ = .ok v ∧ v.toInt = -4) ∧
      ∃ v, apply .shl true {} ⟨-16, false⟩ ⟨2, false⟩ = .ok v ∧
        v.toInt ≡ -64 [ZMOD 2 ^ 64] := by
  have hcount : 0 ≤ (⟨2, false⟩ : Value).toInt := by decide
  obtain ⟨⟨v, hv, -, hmul, -⟩, w, hw, -, hdiv, -⟩ :=
    apply_shift (l := ⟨-16, false⟩) hcount true {}
  exact ⟨hcount, ⟨w, hw, hdiv.2 (by decide)⟩, v, hv, hmul⟩

/-- The highest bit alone, as an unsigned word, shifted to the right by the width is all ones and
not zero. -/
theorem not_floor_shiftRight_width :
    0 ≤ (⟨64, false⟩ : Value).toInt ∧
      ∃ v, apply .shr true {} ⟨0x8000000000000000, true⟩ ⟨64, false⟩ = .ok v ∧
        v.toInt ≠
          (⟨0x8000000000000000, true⟩ : Value).toInt / 2 ^ (64 : BitVec 64).toNat := by
  refine ⟨by decide, ⟨⟨-1, true⟩, ?_, ?_⟩⟩
  · decide
  · decide

end Value
end CPreprocessor

import CPreprocessor.Condition.Constant
import CPreprocessor.Proofs.Condition.Failure
import CPreprocessor.Proofs.Text.Byte
import CPreprocessor.Proofs.Text.Numeral

/-!
The spellings of integer constants. A constant is a numeral in one of four bases with a suffix,
and nothing else is read as one.
-/

namespace CPreprocessor
namespace Constant

open Text (IsDigit Denotes)

/-- An integer constant without its suffix, and the number it denotes. -/
inductive Body : Text → Nat → Prop where
  | hexadecimal {x : UInt8} {ds : Text} {n : Nat} : x = 'x'.toUInt8 ∨ x = 'X'.toUInt8 →
      Denotes 16 ds n → Body ('0'.toUInt8 :: x :: ds) n
  | binary {b : UInt8} {ds : Text} {n : Nat} : b = 'b'.toUInt8 ∨ b = 'B'.toUInt8 →
      Denotes 2 ds n → Body ('0'.toUInt8 :: b :: ds) n
  | octal {ds : Text} {n : Nat} : Denotes 8 ds n → Body ('0'.toUInt8 :: ds) n
  | decimal {ds : Text} {n : Nat} : Denotes 10 ds n →
      (ds.head? = some '0'.toUInt8 → ds = ascii "0") → Body ds n

/-- An integer constant with its suffix, which may be in either case. The number fits a word. -/
structure Spelled (t suffix : Text) (n : Nat) : Prop where
  body : ∃ body, t = body ++ suffix ∧ Body body n
  suffix_mem : suffix.map Byte.toLower ∈ suffixes
  lt : n < 2 ^ 64

section Digits

variable {base d n : Nat} {b : UInt8} {t : Text}

theorem any_of_isDigit {limit : Nat} (h : IsDigit base b d) (hb : base ≤ limit) :
    (Byte.digitValue? b).any (· < limit) = true :=
  Text.exists_isDigit_iff.1 ⟨d, h.1, Nat.lt_of_lt_of_le h.2 hb⟩

/-- No digit occurs in a suffix, and none is a sign of a floating hexadecimal. -/
theorem of_isDigit_sixteen (h : IsDigit base b d) (hb : base ≤ 16) :
    isSuffixByte b = false ∧ (ascii ".pP").contains b = false :=
  Byte.forall_of_lt (p := fun b => (Byte.digitValue? b).any (· < 16) = true →
    isSuffixByte b = false ∧ (ascii ".pP").contains b = false) (by decide +kernel) b
    (any_of_isDigit h hb)

theorem of_isDigit_ten (h : IsDigit base b d) (hb : base ≤ 10) :
    (ascii ".eE").contains b = false ∧ ¬(b = 'x'.toUInt8 ∨ b = 'X'.toUInt8) ∧
      ¬(b = 'b'.toUInt8 ∨ b = 'B'.toUInt8) :=
  Byte.forall_of_lt (p := fun b => (Byte.digitValue? b).any (· < 10) = true →
    (ascii ".eE").contains b = false ∧ ¬(b = 'x'.toUInt8 ∨ b = 'X'.toUInt8) ∧
      ¬(b = 'b'.toUInt8 ∨ b = 'B'.toUInt8)) (by decide +kernel) b (any_of_isDigit h hb)

theorem not_any_sixteen (h : Denotes 16 t n) : ¬t.any (ascii ".pP").contains = true := by
  rw [List.any_eq_true]
  rintro ⟨b, hb, hc⟩
  obtain ⟨d, hd⟩ := h.isDigit b hb
  rw [(of_isDigit_sixteen hd (Nat.le_refl 16)).2] at hc
  cases hc

theorem not_any_ten (h : Denotes base t n) (hb : base ≤ 10) :
    ¬t.any (ascii ".eE").contains = true := by
  rw [List.any_eq_true]
  rintro ⟨b, hm, hc⟩
  obtain ⟨d, hd⟩ := h.isDigit b hm
  rw [(of_isDigit_ten hd hb).1] at hc
  cases hc

end Digits

theorem baseAndDigits_of_body {t : Text} {n : Nat} (h : Body t n) :
    ∃ base ds, baseAndDigits t = some (base, ds) ∧ Denotes base ds n := by
  cases h with
  | hexadecimal hx hds =>
      refine ⟨16, _, ?_, hds⟩
      change baseAndDigits (0x30 :: _ :: _) = _
      rw [baseAndDigits, if_pos hx, if_neg (not_any_sixteen hds)]
  | binary hb hds =>
      refine ⟨2, _, ?_, hds⟩
      change baseAndDigits (0x30 :: _ :: _) = _
      rw [baseAndDigits, if_neg (by rcases hb with rfl | rfl <;> decide), if_pos hb]
  | @octal ds n hds =>
      refine ⟨8, ds, ?_, hds⟩
      cases ds with
      | nil => exact absurd rfl hds.ne_nil
      | cons c ds =>
          obtain ⟨d, hd⟩ := hds.isDigit c List.mem_cons_self
          obtain ⟨-, hx, hb⟩ := of_isDigit_ten hd (by decide)
          have hany : ¬(0x30 :: c :: ds).any (ascii ".eE").contains = true := by
            rw [List.any_cons]
            exact not_any_ten hds (by decide)
          change baseAndDigits (0x30 :: c :: ds) = _
          rw [baseAndDigits, if_neg hx, if_neg hb, if_neg hany]
  | decimal hds hzero =>
      refine ⟨10, t, ?_, hds⟩
      unfold baseAndDigits
      split
      · exact absurd (hzero rfl) (by simp [ascii])
      · rw [if_neg (not_any_ten hds (Nat.le_refl 10))]

theorem body_of_baseAndDigits {t ds : Text} {base n : Nat} (h : baseAndDigits t = some (base, ds))
    (hds : Denotes base ds n) : Body t n := by
  unfold baseAndDigits at h
  split at h
  · rename_i b digits
    split at h
    · split at h
      · cases h
      · cases h
        exact .hexadecimal ‹_› hds
    · split at h
      · cases h
        exact .binary ‹_› hds
      · split at h
        · cases h
        · cases h
          exact .octal hds
  · rename_i hshape
    split at h
    · cases h
    · cases h
      refine .decimal hds fun hhead => ?_
      cases t with
      | nil => cases hhead
      | cons c t =>
          cases hhead
          cases t with
          | nil => rfl
          | cons b t => exact absurd rfl (hshape b t)

theorem getLast?_of_denotes {base n : Nat} {ds : Text} (h : Denotes base ds n) (hb : base ≤ 16)
    (t : Text) : ∀ b ∈ (t ++ ds).getLast?, isSuffixByte b = false := by
  intro b hlast
  rw [List.getLast?_append, List.getLast?_eq_some_getLast h.ne_nil] at hlast
  obtain ⟨d, hd⟩ := h.isDigit b (Option.some.inj hlast ▸ List.getLast_mem h.ne_nil)
  exact (of_isDigit_sixteen hd hb).1

theorem Body.getLast? {t : Text} {n : Nat} (h : Body t n) :
    ∀ b ∈ t.getLast?, isSuffixByte b = false := by
  cases h with
  | hexadecimal _ hds => exact getLast?_of_denotes hds (Nat.le_refl 16) [_, _]
  | binary _ hds => exact getLast?_of_denotes hds (by decide) [_, _]
  | octal hds => exact getLast?_of_denotes hds (by decide) [_]
  | decimal hds _ => exact getLast?_of_denotes hds (by decide) []

theorem isSuffixByte_of_suffixes {suffix : Text} (h : suffix.map Byte.toLower ∈ suffixes) :
    ∀ b ∈ suffix, isSuffixByte b = true := by
  have hall : (suffixes.all fun s => s.all (ascii "ul").contains) = true := by decide
  intro b hb
  have hlow : (ascii "ul").contains (Byte.toLower b) = true :=
    List.all_eq_true.1 (List.all_eq_true.1 hall _ h) _ (List.mem_map_of_mem hb)
  exact Byte.forall_of_lt (p := fun b => (ascii "ul").contains (Byte.toLower b) = true →
    isSuffixByte b = true) (by decide +kernel) b hlow

theorem splitSuffix_append {body suffix : Text} (hs : ∀ b ∈ suffix, isSuffixByte b = true)
    (hb : ∀ b ∈ body.getLast?, isSuffixByte b = false) :
    splitSuffix (body ++ suffix) = (body, suffix) := by
  have hbody : body.reverse.takeWhile isSuffixByte = [] := by
    rw [← List.head?_reverse] at hb
    cases hr : body.reverse with
    | nil => rfl
    | cons c t =>
        rw [hr] at hb
        rw [List.takeWhile_cons, hb c rfl]
        rfl
  have hsuffix : ((body ++ suffix).reverse.takeWhile isSuffixByte).reverse = suffix := by
    rw [List.reverse_append, List.takeWhile_append_of_pos (by simpa using hs), hbody,
      List.append_nil, List.reverse_reverse]
  simp only [splitSuffix, hsuffix, List.length_append, Nat.add_sub_cancel, List.take_left]

theorem append_splitSuffix (t : Text) : (splitSuffix t).1 ++ (splitSuffix t).2 = t := by
  have ht : t = (t.reverse.dropWhile isSuffixByte).reverse ++
      (t.reverse.takeWhile isSuffixByte).reverse := by
    rw [← List.reverse_append, List.takeWhile_append_dropWhile, List.reverse_reverse]
  have hlength : t.length - (t.reverse.takeWhile isSuffixByte).reverse.length =
      (t.reverse.dropWhile isSuffixByte).reverse.length := by
    have := congrArg List.length ht
    rw [List.length_append] at this
    omega
  have htake : t.take (t.reverse.dropWhile isSuffixByte).reverse.length =
      (t.reverse.dropWhile isSuffixByte).reverse :=
    (congrArg (List.take _) ht).trans List.take_left
  simp only [splitSuffix, hlength, htake]
  exact ht.symm

theorem wordCount_eq : wordCount = 2 ^ 64 :=
  rfl

/-- What a number token is read from. -/
theorem number_eq_ok {t : Token} {v : Value} (h : number t = .ok v) :
    ∃ suffix n, Spelled (t.text.filter (· != Byte.apostrophe)) suffix n ∧
      v = { word := BitVec.ofNat 64 n
            unsigned := wordCount ≤ 2 * n ||
              (suffix.map Byte.toLower).contains 'u'.toUInt8 } := by
  have hsplit := append_splitSuffix (t.text.filter (· != Byte.apostrophe))
  simp only [number] at h
  split at h
  · cases h
  · rename_i base ds hbase
    split at h
    · cases h
    · rename_i hsuffix
      split at h
      · cases h
      · cases h
      · rename_i n hn
        obtain ⟨hds, hlt⟩ := Text.numeral_eq_ok_iff.1 hn
        refine ⟨_, n, ⟨⟨_, hsplit.symm, body_of_baseAndDigits hbase hds⟩, ?_, hlt⟩,
          (Except.ok.inj h).symm⟩
        simpa using hsuffix

theorem Spelled.number {t : Token} {suffix : Text} {n : Nat}
    (h : Spelled (t.text.filter (· != Byte.apostrophe)) suffix n) :
    number t = .ok { word := BitVec.ofNat 64 n
                     unsigned := wordCount ≤ 2 * n ||
                       (suffix.map Byte.toLower).contains 'u'.toUInt8 } := by
  obtain ⟨⟨body, htext, hbody⟩, hsuffix, hlt⟩ := h
  obtain ⟨base, ds, hbase, hds⟩ := baseAndDigits_of_body hbody
  have hsplit := splitSuffix_append (isSuffixByte_of_suffixes hsuffix) hbody.getLast?
  have hn : Text.numeral base wordCount ds = .ok n := Text.numeral_eq_ok_iff.2 ⟨hds, hlt⟩
  simp only [Constant.number, htext, hsplit, hbase, List.contains_eq_mem, hsuffix, hn,
    decide_true, Bool.not_true, Bool.false_eq_true, if_false]

/-- Exactly the spelled integer constants have a value: the number they denote, as an unsigned word
if it does not fit a signed one or if the suffix says so. Every other number token is an error of
evaluation. -/
theorem number_eq_ok_iff (t : Token) :
    (∀ v, number t = .ok v ↔
      ∃ suffix n, Spelled (t.text.filter (· != Byte.apostrophe)) suffix n ∧
        v.word.toNat = n ∧
        (v.unsigned = true ↔ 2 ^ 63 ≤ n ∨ 'u'.toUInt8 ∈ suffix.map Byte.toLower)) ∧
    ((¬∃ suffix n, Spelled (t.text.filter (· != Byte.apostrophe)) suffix n) →
      ∃ e, number t = .error e ∧ e.kind = .evaluation) := by
  have hunsigned (n : Nat) (s : Text) :
      (decide (wordCount ≤ 2 * n) || s.contains 'u'.toUInt8) = true ↔
        2 ^ 63 ≤ n ∨ 'u'.toUInt8 ∈ s := by
    rw [Bool.or_eq_true, decide_eq_true_eq, List.contains_iff_mem, wordCount_eq]
    exact or_congr (by omega) Iff.rfl
  refine ⟨fun v => ⟨fun h => ?_, ?_⟩, fun hnone => ?_⟩
  · obtain ⟨suffix, n, hs, rfl⟩ := number_eq_ok h
    refine ⟨suffix, n, hs, ?_, hunsigned n _⟩
    rw [BitVec.toNat_ofNat, Nat.mod_eq_of_lt hs.lt]
  · rintro ⟨suffix, n, hs, rfl, hu⟩
    rw [hs.number, BitVec.ofNat_toNat, BitVec.setWidth_eq,
      Bool.eq_iff_iff.2 ((hunsigned _ _).trans hu.symm)]
  · cases h : number t with
    | ok v =>
        obtain ⟨suffix, n, hs, -⟩ := number_eq_ok h
        exact absurd ⟨suffix, n, hs⟩ hnone
    | error e => exact ⟨e, rfl, failsAs_number t e h⟩

/-- Digits in both cases, one of them separated, and a suffix. -/
theorem number_eq_ok_separated :
    number { kind := .number, text := ascii "0xF'fuL" } =
      .ok { word := 255, unsigned := true } := by
  have hbody : Body (ascii "0xFf") 255 :=
    .hexadecimal (.inl rfl)
      (Text.numeral_eq_ok_iff.1 (rfl : Text.numeral 16 256 (ascii "Ff") = .ok 255)).1
  refine ((number_eq_ok_iff _).1 _).2 ⟨ascii "uL", 255, ⟨⟨_, ?_, hbody⟩, ?_, ?_⟩,
    rfl, ?_⟩
  all_goals decide

end Constant
end CPreprocessor

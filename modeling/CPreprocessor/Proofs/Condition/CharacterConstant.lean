import CPreprocessor.Condition.Constant
import CPreprocessor.Proofs.Lexer.Characters
import CPreprocessor.Proofs.Text.Numeral
import Mathlib.Data.List.Induction
import Mathlib.Data.Nat.Digits.Defs

/-!
Character constants between their quotes: a sequence of ordinary characters and escape sequences,
each of the latter as long as it can be. The scanner of literals lets through nothing else, and the
evaluation of constants reads the same sequence, so that a constant of a scanned text fails only
if it is empty or if a number in it does not fit a character.
-/

namespace CPreprocessor
namespace Constant

open Text (IsDigit Denotes)

/-- A character of a constant: one that is written out or named by a letter, or one that is given
by its number. -/
inductive Piece where
  | written (n : Nat)
  | numeric (n : Nat)
deriving DecidableEq, Repr

def Piece.value : Piece → Nat
  | written n | numeric n => n

/-- `Splits cs t ps` says that the text `t` between the quotes of a constant has the characters
`ps`. Narrow characters are bytes, wide ones are decoded. -/
inductive Splits (cs : Charset) : Text → List Piece → Prop where
  | nil : Splits cs [] []
  | byte {b : UInt8} {t : Text} {ps : List Piece} : cs = .narrow → b ≠ Byte.backslash →
      Splits cs t ps → Splits cs (b :: t) (.written b.toNat :: ps)
  | wide {b : UInt8} {u t : Text} {n : Nat} {ps : List Piece} :
      cs ≠ .narrow → b ≠ Byte.backslash → Utf8.decode (b :: (u ++ t)) = some (n, t) →
      Splits cs t ps →
      Splits cs (b :: (u ++ t)) (.written n :: ps)
  | stray {b : UInt8} {t : Text} {ps : List Piece} : cs ≠ .narrow → b ≠ Byte.backslash →
      Utf8.decode (b :: t) = none → Splits cs t ps →
      Splits cs (b :: t) (.written Utf8.replacement :: ps)
  | simple {b : UInt8} {t : Text} {n : Nat} {ps : List Piece} : simpleEscape? b = some n →
      Splits cs t ps → Splits cs (Byte.backslash :: b :: t) (.written n :: ps)
  | octal {ds t : Text} {n : Nat} {ps : List Piece} : Denotes 8 ds n → ds.length ≤ 3 →
      ds.length = 3 ∨ (∀ b ∈ t.head?, Byte.isOctal b = false) → Splits cs t ps →
      Splits cs (Byte.backslash :: (ds ++ t)) (.numeric n :: ps)
  | hexadecimal {ds t : Text} {n : Nat} {ps : List Piece} : Denotes 16 ds n →
      (∀ b ∈ t.head?, Byte.isHex b = false) → Splits cs t ps →
      Splits cs (Byte.backslash :: 'x'.toUInt8 :: (ds ++ t)) (.numeric n :: ps)
  | shortName {ds t : Text} {n : Nat} {ps : List Piece} : Denotes 16 ds n → ds.length = 4 →
      Splits cs t ps → Splits cs (Byte.backslash :: 'u'.toUInt8 :: (ds ++ t)) (.numeric n :: ps)
  | longName {ds t : Text} {n : Nat} {ps : List Piece} : Denotes 16 ds n → ds.length = 8 →
      Splits cs t ps → Splits cs (Byte.backslash :: 'U'.toUInt8 :: (ds ++ t)) (.numeric n :: ps)

section Digits

variable {b : UInt8} {d n : Nat} {ds t : Text}

theorem isHex_iff : Byte.isHex b = true ↔ ∃ d, IsDigit 16 b d := by
  rw [Text.exists_isDigit_iff, ← Bool.eq_iff_iff]
  exact Byte.forall_of_lt (p := fun b => Byte.isHex b = (Byte.digitValue? b).any (· < 16))
    (by decide +kernel) b

theorem isOctal_iff : Byte.isOctal b = true ↔ ∃ d, IsDigit 8 b d := by
  rw [Text.exists_isDigit_iff, ← Bool.eq_iff_iff]
  exact Byte.forall_of_lt (p := fun b => Byte.isOctal b = (Byte.digitValue? b).any (· < 8))
    (by decide +kernel) b

/-- An octal digit is no letter of another escape sequence. -/
theorem of_isOctal (h : Byte.isOctal b = true) :
    simpleEscape? b = none ∧ b ≠ 'x'.toUInt8 ∧ b ≠ 'u'.toUInt8 ∧ b ≠ 'U'.toUInt8 :=
  Byte.forall_of_lt (p := fun b => Byte.isOctal b = true →
    simpleEscape? b = none ∧ b ≠ 'x'.toUInt8 ∧ b ≠ 'u'.toUInt8 ∧ b ≠ 'U'.toUInt8)
    (by decide +kernel) b h

theorem toNat_of_isDigit (h : IsDigit 8 b d) : b.toNat - 0x30 = d := by
  have hall : (Byte.digitValue? b).all (fun d => !decide (d < 8) || b.toNat - 0x30 == d) = true :=
    Byte.forall_of_lt (p := fun b =>
      (Byte.digitValue? b).all (fun d => !decide (d < 8) || b.toNat - 0x30 == d) = true)
      (by decide +kernel) b
  rw [h.1] at hall
  simpa [h.2] using hall

theorem foldl_of_denotes (h : Denotes 8 ds n) :
    ds.foldl (fun n d => n * 8 + (d.toNat - 0x30)) 0 = n := by
  induction h with
  | digit hd => simp [toNat_of_isDigit hd]
  | append _ hd ih =>
      rw [List.foldl_append, ih, List.foldl_cons, toNat_of_isDigit hd, List.foldl_nil]

/-- The longest run of a class of bytes that ends before `t`. -/
theorem takeWhile_run {p : UInt8 → Bool} (hds : ∀ b ∈ ds, p b = true)
    (ht : ∀ b ∈ t.head?, p b = false) :
    (ds ++ t).takeWhile p = ds ∧ (ds ++ t).dropWhile p = t := by
  rw [List.takeWhile_append_of_pos hds, List.dropWhile_append_of_pos hds]
  cases t with
  | nil => simp
  | cons b t => simp [ht b rfl]

end Digits

section Escape

variable {n : Nat} {ds t : Text}

theorem escape_simple {b : UInt8} (h : simpleEscape? b = some n) (t : Text) :
    escape (b :: t) = .ok (n, t) := by
  simp only [escape, h]

theorem escape_octal (hds : Denotes 8 ds n) (hlength : ds.length ≤ 3)
    (ht : ds.length = 3 ∨ ∀ b ∈ t.head?, Byte.isOctal b = false) :
    escape (ds ++ t) = .ok (n, t) := by
  have hall : ∀ b ∈ ds, Byte.isOctal b = true := fun b hb => isOctal_iff.2 (hds.isDigit b hb)
  have hfold := foldl_of_denotes hds
  cases ds with
  | nil => exact absurd rfl hds.ne_nil
  | cons b ds =>
      obtain ⟨hb, hall⟩ := List.forall_mem_cons.1 hall
      obtain ⟨hsimple, hx, hu, hU⟩ := of_isOctal hb
      rw [List.length_cons] at hlength ht
      have hrun : ((ds ++ t).take 2).takeWhile Byte.isOctal = ds := by
        rw [List.take_append, List.take_of_length_le (by omega)]
        refine (takeWhile_run hall fun c hc => ?_).1
        rw [List.head?_take] at hc
        split at hc
        · cases hc
        · exact ht.resolve_left (by omega) c hc
      simp only [List.cons_append, escape, hsimple, if_neg hx, if_neg hu, if_neg hU, if_pos hb,
        hrun, hfold, List.length_cons, Nat.add_sub_cancel, List.drop_left]

theorem escape_hexadecimal (hds : Denotes 16 ds n) (ht : ∀ b ∈ t.head?, Byte.isHex b = false) :
    escape ('x'.toUInt8 :: (ds ++ t)) = .ok (n, t) ∨
      wordCount ≤ n ∧ escape ('x'.toUInt8 :: (ds ++ t)) = .error .badHex := by
  have hall : ∀ b ∈ ds, Byte.isHex b = true := fun b hb => isHex_iff.2 (hds.isDigit b hb)
  obtain ⟨htake, hdrop⟩ := takeWhile_run hall ht
  have hsimple : simpleEscape? 'x'.toUInt8 = none := by decide
  simp only [escape, hsimple, if_true, htake, hdrop]
  obtain hn | hn := Nat.lt_or_ge n wordCount
  · rw [Text.numeral_eq_ok_iff.2 ⟨hds, hn⟩]
    exact .inl rfl
  · obtain ⟨e, he⟩ := hds.numeral_eq_error hn
    rw [he]
    exact .inr ⟨hn, rfl⟩

theorem characterName_of_denotes {width : Nat} (hds : Denotes 16 ds n) (hlength : ds.length = width)
    (hwidth : width ≤ 8) (t : Text) : characterName width (ds ++ t) = .ok (n, t) := by
  subst hlength
  have hn : n < 0x100000000 :=
    calc n < 16 ^ ds.length := hds.lt_pow_length
      _ ≤ 16 ^ 8 := Nat.pow_le_pow_right (by decide) hwidth
  rw [characterName, if_neg (by simp), List.take_left, List.drop_left,
    Text.numeral_eq_ok_iff.2 ⟨hds, hn⟩]

end Escape

section Reading

variable {cs : Charset} {t rest : Text} {ps : List Piece} {n : Nat}

/-- What the evaluation makes of the characters `ps`. -/
inductive Reads (cs : Charset) (ps : List Piece) : Except EscapeFault (List Nat) → Prop where
  | fits : (∀ n, Piece.numeric n ∈ ps → n < cs.count) →
      Reads cs ps (.ok (ps.map fun p => p.value % cs.count))
  | outOfRange {n : Nat} :
      Piece.numeric n ∈ ps → cs.count ≤ n → Reads cs ps (.error .outOfRange)
  | badHex {n : Nat} : Piece.numeric n ∈ ps → wordCount ≤ n → Reads cs ps (.error .badHex)

theorem characters_escape (h : escape t = .ok (n, rest)) :
    characters cs (Byte.backslash :: t) =
      if cs.count ≤ n then .error .outOfRange else (characters cs rest).map (n :: ·) := by
  rw [characters, if_pos rfl]
  split <;> simp_all

theorem characters_escape_error {e : EscapeFault} (h : escape t = .error e) :
    characters cs (Byte.backslash :: t) = .error e := by
  rw [characters, if_pos rfl]
  split <;> simp_all

theorem characters_plain {b : UInt8} (hb : b ≠ Byte.backslash) :
    characters cs (b :: t) =
      (characters cs (plainCharacter cs b t).2).map ((plainCharacter cs b t).1 :: ·) := by
  rw [characters, if_neg hb]

theorem Reads.cons {p : Piece} {r : Except EscapeFault (List Nat)}
    (hp : ∀ n, p = .numeric n → n < cs.count) (h : Reads cs ps r) :
    Reads cs (p :: ps) (r.map (p.value % cs.count :: ·)) := by
  cases h with
  | fits h =>
      refine .fits fun n hn => ?_
      obtain hn | hn := List.mem_cons.1 hn
      · exact hp n hn.symm
      · exact h n hn
  | outOfRange hn hle => exact .outOfRange (List.mem_cons_of_mem p hn) hle
  | badHex hn hle => exact .badHex (List.mem_cons_of_mem p hn) hle

theorem Reads.written (h : Reads cs ps (characters cs rest)) :
    Reads cs (.written n :: ps) ((characters cs rest).map (n % cs.count :: ·)) :=
  h.cons fun _ hn => by cases hn

theorem Reads.numeric
    (he : escape t = .ok (n, rest) ∨ wordCount ≤ n ∧ escape t = .error .badHex)
    (h : Reads cs ps (characters cs rest)) :
    Reads cs (.numeric n :: ps) (characters cs (Byte.backslash :: t)) := by
  obtain he | ⟨hn, he⟩ := he
  · rw [characters_escape he]
    split
    · exact .outOfRange List.mem_cons_self ‹_›
    · rename_i hn
      rw [Nat.not_le] at hn
      have hr := h.cons (p := .numeric n) fun m hm => by cases hm; exact hn
      rwa [Piece.value, Nat.mod_eq_of_lt hn] at hr
  · rw [characters_escape_error he]
    exact .badHex List.mem_cons_self hn

theorem lt_of_simpleEscape? {b : UInt8} (h : simpleEscape? b = some n) : n < 256 := by
  have hall : (simpleEscape? b).all (· < 256) = true :=
    Byte.forall_of_lt (p := fun b => (simpleEscape? b).all (· < 256) = true) (by decide +kernel) b
  rw [h] at hall
  simpa using hall

theorem Charset.le_count (cs : Charset) : 256 ≤ cs.count := by
  cases cs <;> decide

theorem Charset.le_count_of_ne (h : cs ≠ .narrow) : cs.bits ≠ 8 ∧ 0x10000 ≤ cs.count := by
  cases cs <;> first | exact absurd rfl h | decide

/-- The evaluation reads the characters that a constant consists of. -/
theorem Splits.reads (h : Splits cs t ps) : Reads cs ps (characters cs t) := by
  induction h with
  | nil =>
      rw [characters]
      exact .fits fun n hn => by cases hn
  | @byte b t ps hcs hb _ ih =>
      rw [characters_plain hb, plainCharacter, if_pos (by rw [hcs]; rfl)]
      have hr := ih.written (n := b.toNat)
      rwa [Nat.mod_eq_of_lt (Nat.lt_of_lt_of_le b.toNat_lt cs.le_count)] at hr
  | wide hcs hb hd _ ih =>
      rw [characters_plain hb, plainCharacter, if_neg (Charset.le_count_of_ne hcs).1, hd]
      exact ih.written
  | stray hcs hb hd _ ih =>
      obtain ⟨hbits, hcount⟩ := Charset.le_count_of_ne hcs
      rw [characters_plain hb, plainCharacter, if_neg hbits, hd]
      have hr := ih.written (n := Utf8.replacement)
      rwa [Nat.mod_eq_of_lt (Nat.lt_of_lt_of_le (by decide) hcount)] at hr
  | @simple b t n ps hn _ ih =>
      have hlt := Nat.lt_of_lt_of_le (lt_of_simpleEscape? hn) cs.le_count
      rw [characters_escape (escape_simple hn t), if_neg (Nat.not_le.2 hlt)]
      have hr := ih.written (n := n)
      rwa [Nat.mod_eq_of_lt hlt] at hr
  | octal hds hlength ht _ ih => exact ih.numeric (.inl (escape_octal hds hlength ht))
  | hexadecimal hds ht _ ih => exact ih.numeric (escape_hexadecimal hds ht)
  | shortName hds hlength _ ih =>
      exact ih.numeric (.inl (characterName_of_denotes hds hlength (by decide) _))
  | longName hds hlength _ ih =>
      exact ih.numeric (.inl (characterName_of_denotes hds hlength (by decide) _))

end Reading

section Scanning

open Spelling

variable {mark : UInt8} {t : Text}

theorem literalTail_cons {b : UInt8} (h : LiteralTail mark (b :: t)) :
    b = mark ∧ t = [] ∨ b ≠ Byte.backslash ∧ LiteralTail mark t ∨
      b = Byte.backslash ∧ ∃ c u, t = c :: u ∧
        (Lexer.isSimpleEscape c = true ∧ LiteralTail mark u ∨
          Lexer.isSimpleEscape c = false ∧ escapes c u = true ∧ LiteralTail mark (c :: u)) := by
  cases h with
  | close => exact .inl ⟨rfl, rfl⟩
  | plain _ _ hb ht => exact .inr (.inl ⟨hb, ht⟩)
  | escape hc ht => exact .inr (.inr ⟨rfl, _, _, rfl, .inl ⟨hc, ht⟩⟩)
  | numeric hc he ht => exact .inr (.inr ⟨rfl, _, _, rfl, .inr ⟨hc, he, ht⟩⟩)

/-- Bytes that are no quote and no backslash may be dropped from the front of a literal. -/
theorem literalTail_drop {u : Text} (hu : ∀ b ∈ u, b ≠ mark ∧ b ≠ Byte.backslash)
    (h : LiteralTail mark (u ++ t)) : LiteralTail mark t := by
  induction u with
  | nil => exact h
  | cons b u ih =>
      obtain ⟨⟨hm, hb⟩, hu⟩ := List.forall_mem_cons.1 hu
      obtain ⟨rfl, -⟩ | ⟨-, ht⟩ | ⟨rfl, -⟩ := literalTail_cons h
      · exact absurd rfl hm
      · exact ih hu ht
      · exact absurd rfl hb

theorem ne_of_isHex {b : UInt8} (h : Byte.isHex b = true) :
    b ≠ Byte.apostrophe ∧ b ≠ Byte.backslash :=
  Byte.forall_of_lt
    (p := fun b => Byte.isHex b = true → b ≠ Byte.apostrophe ∧ b ≠ Byte.backslash)
    (by decide +kernel) b h

theorem isHex_of_isOctal {b : UInt8} (h : Byte.isOctal b = true) : Byte.isHex b = true :=
  Byte.forall_of_lt (p := fun b => Byte.isOctal b = true → Byte.isHex b = true)
    (by decide +kernel) b h

theorem exists_simpleEscape {b : UInt8} (h : Lexer.isSimpleEscape b = true) :
    ∃ n, simpleEscape? b = some n := by
  have hall : Lexer.isSimpleEscape b = true → (simpleEscape? b).isSome = true :=
    Byte.forall_of_lt (p := fun b => Lexer.isSimpleEscape b = true →
      (simpleEscape? b).isSome = true) (by decide +kernel) b
  exact Option.isSome_iff_exists.1 (hall h)

/-- The first `k` bytes of a class, or as many as there are. -/
theorem exists_run (p : UInt8 → Bool) (k : Nat) (t : Text) :
    ∃ ds rest, t = ds ++ rest ∧ ds.length ≤ k ∧ (∀ b ∈ ds, p b = true) ∧
      (ds.length = k ∨ ∀ b ∈ rest.head?, p b = false) := by
  induction k generalizing t with
  | zero => exact ⟨[], t, rfl, Nat.le_refl 0, List.forall_mem_nil _, .inl rfl⟩
  | succ k ih =>
      cases t with
      | nil =>
          exact ⟨[], [], rfl, Nat.zero_le _, List.forall_mem_nil _,
            .inr fun b hb => by cases hb⟩
      | cons b t =>
          cases hb : p b with
          | false =>
              refine ⟨[], b :: t, rfl, Nat.zero_le _, List.forall_mem_nil _,
                .inr fun c hc => ?_⟩
              rwa [← Option.some.inj hc]
          | true =>
              obtain ⟨ds, rest, rfl, hlength, hds, hrest⟩ := ih t
              exact ⟨b :: ds, rest, rfl, Nat.succ_le_succ hlength,
                List.forall_mem_cons.2 ⟨hb, hds⟩, hrest.imp_left (congrArg Nat.succ)⟩

theorem exists_of_hexFirst {c : UInt8} (hc : Byte.isHex c = false) {n : Nat}
    (h : hexFirst n (t ++ [c]) = true) :
    ∃ ds rest, t = ds ++ rest ∧ ds.length = n ∧ ∀ b ∈ ds, Byte.isHex b = true := by
  induction n generalizing t with
  | zero => exact ⟨[], t, rfl, rfl, List.forall_mem_nil _⟩
  | succ n ih =>
      cases t with
      | nil => simp [hexFirst, hc] at h
      | cons b t =>
          simp only [List.cons_append, hexFirst, Bool.and_eq_true] at h
          obtain ⟨ds, rest, rfl, hlength, hds⟩ := ih h.2
          exact ⟨b :: ds, rest, rfl, congrArg Nat.succ hlength,
            List.forall_mem_cons.2 ⟨h.1, hds⟩⟩

theorem denotes_of_isHex {ds : Text} (hne : ds ≠ []) (hds : ∀ b ∈ ds, Byte.isHex b = true) :
    ∃ n, Denotes 16 ds n :=
  Text.exists_denotes hne fun b hb => isHex_iff.1 (hds b hb)

/-- A numeric escape sequence of a literal, with its number and the literal behind it. -/
theorem exists_splits_numeric (cs : Charset) {c : UInt8}
    (hsimple : Lexer.isSimpleEscape c = false) (he : escapes c (t ++ [Byte.apostrophe]) = true)
    (h : LiteralTail Byte.apostrophe (c :: (t ++ [Byte.apostrophe])))
    (ih : ∀ rest, rest.length ≤ t.length →
      LiteralTail Byte.apostrophe (rest ++ [Byte.apostrophe]) → ∃ ps, Splits cs rest ps) :
    ∃ ps, Splits cs (Byte.backslash :: c :: t) ps := by
  have hmark : Byte.isHex Byte.apostrophe = false := by decide
  simp only [escapes, hsimple, Bool.false_or, Bool.or_eq_true, Bool.and_eq_true, beq_iff_eq,
    or_assoc] at he
  have hdrop {letter : UInt8} (hl : letter ≠ Byte.apostrophe ∧ letter ≠ Byte.backslash)
      {ds rest : Text} (hds : ∀ b ∈ ds, Byte.isHex b = true)
      (h : LiteralTail Byte.apostrophe (letter :: (ds ++ rest ++ [Byte.apostrophe]))) :
      LiteralTail Byte.apostrophe (rest ++ [Byte.apostrophe]) := by
    rw [List.append_assoc, ← List.cons_append] at h
    exact literalTail_drop (List.forall_mem_cons.2 ⟨hl, fun b hb => ne_of_isHex (hds b hb)⟩) h
  obtain hoctal | ⟨rfl, hx⟩ | ⟨rfl, hu⟩ | ⟨rfl, hU⟩ := he
  · obtain ⟨ds, rest, rfl, hlength, hds, hrest⟩ := exists_run Byte.isOctal 2 t
    obtain ⟨n, hn⟩ := Text.exists_denotes (List.cons_ne_nil c ds)
      (List.forall_mem_cons.2 ⟨isOctal_iff.1 hoctal, fun b hb => isOctal_iff.1 (hds b hb)⟩)
    obtain ⟨ps, hps⟩ := ih rest (by simp)
      (hdrop (ne_of_isHex (isHex_of_isOctal hoctal)) (fun b hb => isHex_of_isOctal (hds b hb)) h)
    exact ⟨_, .octal hn (Nat.succ_le_succ hlength) (hrest.imp_left (congrArg Nat.succ)) hps⟩
  · -- the scanner asks for one digit, the evaluation takes all that follow
    obtain ⟨ds, u, rfl, hlength, hds⟩ := exists_of_hexFirst hmark hx
    obtain ⟨es, rest, rfl, -, hes, hrest⟩ := exists_run Byte.isHex u.length u
    have hmax : ∀ b ∈ rest.head?, Byte.isHex b = false := by
      refine hrest.elim (fun hall b hb => ?_) id
      rw [List.length_append, Nat.left_eq_add, List.length_eq_zero_iff] at hall
      rw [hall] at hb
      cases hb
    have hall : ∀ b ∈ ds ++ es, Byte.isHex b = true := List.forall_mem_append.2 ⟨hds, hes⟩
    rw [← List.append_assoc] at h ⊢
    obtain ⟨n, hn⟩ := denotes_of_isHex (fun h => by simp_all) hall
    obtain ⟨ps, hps⟩ := ih rest (by simp; omega) (hdrop (by decide) hall h)
    exact ⟨_, .hexadecimal hn hmax hps⟩
  · obtain ⟨ds, rest, rfl, hlength, hds⟩ := exists_of_hexFirst hmark hu
    obtain ⟨n, hn⟩ := denotes_of_isHex (fun h => by rw [h] at hlength; cases hlength) hds
    obtain ⟨ps, hps⟩ := ih rest (by simp) (hdrop (by decide) hds h)
    exact ⟨_, .shortName hn hlength hps⟩
  · obtain ⟨ds, rest, rfl, hlength, hds⟩ := exists_of_hexFirst hmark hU
    obtain ⟨n, hn⟩ := denotes_of_isHex (fun h => by rw [h] at hlength; cases hlength) hds
    obtain ⟨ps, hps⟩ := ih rest (by simp) (hdrop (by decide) hds h)
    exact ⟨_, .longName hn hlength hps⟩

/-- A character of a literal that is written out, with the literal behind it. -/
theorem exists_splits_plain (cs : Charset) {b : UInt8} (hb : b ≠ Byte.backslash)
    (h : LiteralTail Byte.apostrophe (t ++ [Byte.apostrophe]))
    (ih : ∀ rest, rest.length ≤ t.length →
      LiteralTail Byte.apostrophe (rest ++ [Byte.apostrophe]) → ∃ ps, Splits cs rest ps) :
    ∃ ps, Splits cs (b :: t) ps := by
  by_cases hcs : cs = .narrow
  · obtain ⟨ps, hps⟩ := ih t (Nat.le_refl _) h
    exact ⟨_, .byte hcs hb hps⟩
  · cases hd : Utf8.decode (b :: t) with
    | none =>
        obtain ⟨ps, hps⟩ := ih t (Nat.le_refl _) h
        exact ⟨_, .stray hcs hb hd hps⟩
    | some x =>
        obtain ⟨n, rest⟩ := x
        obtain ⟨a, u, heq, -, htails, -, -⟩ := Utf8.decode_eq_some hd
        obtain ⟨rfl, rfl⟩ : b = a ∧ t = u ++ rest := List.cons.inj heq
        -- no byte behind the first one ends the literal or begins an escape sequence
        have hu : ∀ c ∈ u, c ≠ Byte.apostrophe ∧ c ≠ Byte.backslash := by
          intro c hc
          obtain ⟨-, -, -, -, -, -, hq, hs⟩ :=
            Byte.of_le (UInt8.not_lt.1 (Utf8.not_lt_of_isTail (htails c hc)))
          exact ⟨hq, hs⟩
        rw [List.append_assoc] at h
        obtain ⟨ps, hps⟩ := ih rest (by simp) (literalTail_drop hu h)
        exact ⟨_, .wide hcs hb hd hps⟩

/-- The scanner lets through nothing but characters and escape sequences. -/
theorem exists_splits (cs : Charset) {body : Text}
    (h : LiteralTail Byte.apostrophe (body ++ [Byte.apostrophe])) : ∃ ps, Splits cs body ps := by
  -- by the length, since a piece may take several bytes of the literal
  induction hn : body.length using Nat.strongRecOn generalizing body with
  | ind n ih =>
      cases body with
      | nil => exact ⟨[], .nil⟩
      | cons b t =>
          rw [List.length_cons] at hn
          rw [List.cons_append] at h
          have ih (rest : Text) (hlength : rest.length ≤ t.length)
              (h : LiteralTail Byte.apostrophe (rest ++ [Byte.apostrophe])) :
              ∃ ps, Splits cs rest ps := ih rest.length (by omega) h rfl
          obtain ⟨-, ht⟩ | ⟨hb, ht⟩ | ⟨rfl, c, u, hu, hc⟩ := literalTail_cons h
          · -- a quote would end the literal here
            simp at ht
          · exact exists_splits_plain cs hb ht ih
          · cases t with
            | nil =>
                -- the closing quote would be escaped
                cases hu
                obtain ⟨-, h⟩ | ⟨h, -⟩ := hc
                · cases h
                · cases h
            | cons d t =>
                obtain ⟨rfl, rfl⟩ := List.cons.inj hu
                obtain ⟨hd, ht⟩ | ⟨hd, he, ht⟩ := hc
                · obtain ⟨m, hm⟩ := exists_simpleEscape hd
                  obtain ⟨ps, hps⟩ := ih t (by simp) ht
                  exact ⟨_, .simple hm hps⟩
                · exact exists_splits_numeric cs hd he ht fun rest hlength h =>
                    ih rest (by rw [List.length_cons]; omega) h

end Scanning

section Packing

variable {cs : Charset} {t : Text} {ps : List Piece} {ns : List Nat} {n : Nat}

theorem pack_append (bits : Nat) (ns : List Nat) (n : Nat) :
    pack bits (ns ++ [n]) = pack bits ns <<< bits ||| BitVec.ofNat 64 n := by
  rw [pack, List.foldl_append]
  rfl

/-- Characters that fit their bits are the digits of what they are packed into. -/
theorem toNat_pack {bits : Nat} (h : ∀ n ∈ ns, n < 2 ^ bits) :
    (pack bits ns).toNat = Nat.ofDigits (2 ^ bits) ns.reverse % 2 ^ 64 := by
  induction ns using List.reverseRecOn with
  | nil => rfl
  | append_singleton ns n ih =>
      obtain ⟨hns, hn⟩ := List.forall_mem_append.1 h
      rw [List.forall_mem_singleton] at hn
      calc (pack bits (ns ++ [n])).toNat
          = ((pack bits ns).toNat <<< bits ||| n) % 2 ^ 64 := by
            rw [pack_append, BitVec.toNat_or, BitVec.toNat_shiftLeft, BitVec.toNat_ofNat,
              Nat.or_mod_two_pow]
        _ = (n + 2 ^ bits * (pack bits ns).toNat) % 2 ^ 64 := by
            rw [← Nat.shiftLeft_add_eq_or_of_lt hn, Nat.shiftLeft_eq, Nat.mul_comm, Nat.add_comm]
        _ = (n + 2 ^ bits * Nat.ofDigits (2 ^ bits) ns.reverse) % 2 ^ 64 := by
            rw [ih hns, Nat.add_mod, Nat.mul_mod_mod, ← Nat.add_mod]
        _ = Nat.ofDigits (2 ^ bits) (ns ++ [n]).reverse % 2 ^ 64 := by
            rw [List.reverse_append, List.reverse_singleton, List.singleton_append,
              Nat.ofDigits_cons]

/-- The low bits of a number, read as a signed number. -/
def signedLow (bits n : Nat) : Int :=
  (n : Int).bmod (2 ^ bits)

/-- The low bits of a number, read as an unsigned number. -/
def unsignedLow (bits n : Nat) : Int :=
  (n : Int) % (2 ^ bits : Nat)

/-- The value of a constant with the characters `ns`: one narrow character is a signed byte, several
are the digits of a signed number, and a wide constant is its last character. -/
def packed (cs : Charset) (ns : List Nat) : Int :=
  match cs with
  | .narrow => signedLow (if ns.length = 1 then 8 else 32) (Nat.ofDigits (2 ^ 8) ns.reverse)
  | .wide16 => unsignedLow 16 (ns.getLastD 0)
  | .wide32 => unsignedLow 32 (ns.getLastD 0)
  | .long => signedLow 32 (ns.getLastD 0)

theorem Charset.count_eq (cs : Charset) : cs.count = 2 ^ cs.bits := by
  cases cs <;> rfl

theorem ofDigits_reverse_mod (b : Nat) (ns : List Nat) :
    Nat.ofDigits b ns.reverse % b = ns.getLastD 0 % b := by
  obtain rfl | ⟨init, n, rfl⟩ := List.eq_nil_or_concat ns
  · rfl
  · rw [List.concat_eq_append, List.reverse_append, List.reverse_singleton, List.singleton_append,
      Nat.ofDigits_cons, Nat.add_mul_mod_self_left, List.getLastD_concat]

theorem toInt_signExtend_low {m : Nat} {w : BitVec 64} (hm : m ≤ 64)
    (hn : w.toNat % 2 ^ m = n % 2 ^ m) : ((w.setWidth m).signExtend 64).toInt = signedLow m n := by
  rw [BitVec.toInt_signExtend_of_le hm, BitVec.toInt_setWidth, ← Int.emod_bmod,
    ← Int.natCast_emod, hn, Int.natCast_emod, Int.emod_bmod, signedLow]

theorem toInt_zeroExtend_low {m : Nat} {w : BitVec 64} (hm : m < 64)
    (hn : w.toNat % 2 ^ m = n % 2 ^ m) : ((w.setWidth m).setWidth 64).toInt = unsignedLow m n := by
  have hlt : 2 * (n % 2 ^ m) < 2 ^ 64 :=
    calc 2 * (n % 2 ^ m) < 2 * 2 ^ m :=
          Nat.mul_lt_mul_of_pos_left (Nat.mod_lt _ (Nat.two_pow_pos m)) (by decide)
      _ = 2 ^ (m + 1) := by rw [Nat.pow_succ, Nat.mul_comm]
      _ ≤ 2 ^ 64 := Nat.pow_le_pow_right (by decide) hm
  have hnat : ((w.setWidth m).setWidth 64).toNat = n % 2 ^ m := by
    rw [BitVec.toNat_setWidth, BitVec.toNat_setWidth, hn, Nat.mod_eq_of_lt (by omega)]
  rw [BitVec.toInt_eq_toNat_of_lt (by rwa [hnat]), hnat, unsignedLow, Int.natCast_emod]

theorem toInt_widen (h : ∀ n ∈ ns, n < 2 ^ cs.bits) : (widen cs ns).toInt = packed cs ns := by
  have hlow {m : Nat} (hm : m ≤ 64) : (pack cs.bits ns).toNat % 2 ^ m =
      Nat.ofDigits (2 ^ cs.bits) ns.reverse % 2 ^ m := by
    rw [toNat_pack h, Nat.mod_mod_of_dvd _ (Nat.pow_dvd_pow 2 hm)]
  have hlast (hbits : cs.bits ≤ 64) :
      (pack cs.bits ns).toNat % 2 ^ cs.bits = ns.getLastD 0 % 2 ^ cs.bits := by
    rw [hlow hbits, ofDigits_reverse_mod]
  cases cs with
  | narrow =>
      simp only [Charset.bits] at hlow
      simp only [widen, packed, Charset.bits]
      split
      · exact toInt_signExtend_low (by decide) (hlow (by decide))
      · exact toInt_signExtend_low (by decide) (hlow (by decide))
  | wide16 => exact toInt_zeroExtend_low (by decide) (hlast (by decide))
  | wide32 => exact toInt_zeroExtend_low (by decide) (hlast (by decide))
  | long => exact toInt_signExtend_low (by decide) (hlast (by decide))

/-- What is written out in a narrow constant is a byte. -/
theorem Splits.lt_of_written (h : Splits .narrow t ps) :
    ∀ n, .written n ∈ ps → n < 2 ^ 8 := by
  induction h with
  | nil => exact fun n hn => by cases hn
  | byte _ _ _ ih =>
      intro n hn
      obtain hn | hn := List.mem_cons.1 hn
      · cases hn
        exact UInt8.toNat_lt _
      · exact ih n hn
  | wide hcs => exact absurd rfl hcs
  | stray hcs => exact absurd rfl hcs
  | simple hm _ ih =>
      intro n hn
      obtain hn | hn := List.mem_cons.1 hn
      · cases hn
        exact lt_of_simpleEscape? hm
      · exact ih n hn
  | octal _ _ _ _ ih | hexadecimal _ _ _ ih | shortName _ _ _ ih | longName _ _ _ ih =>
      exact fun n hn => ih n ((List.mem_cons.1 hn).resolve_left (by simp))

theorem getLastD_map_mod (b : Nat) (ns : List Nat) :
    (ns.map (· % b)).getLastD 0 = ns.getLastD 0 % b := by
  obtain rfl | ⟨init, n, rfl⟩ := List.eq_nil_or_concat ns
  · exact (Nat.zero_mod b).symm
  · rw [List.concat_eq_append, List.map_append, List.map_singleton, List.getLastD_concat,
      List.getLastD_concat]

theorem signedLow_mod (bits n : Nat) : signedLow bits (n % 2 ^ bits) = signedLow bits n := by
  rw [signedLow, Int.natCast_emod, Int.emod_bmod, signedLow]

theorem unsignedLow_mod (bits n : Nat) : unsignedLow bits (n % 2 ^ bits) = unsignedLow bits n := by
  rw [unsignedLow, Int.natCast_emod, Int.emod_emod, unsignedLow]

/-- Cutting the characters to their bits changes nothing that the value of a constant keeps. -/
theorem packed_mod (h : Splits cs t ps) (hfits : ∀ n, .numeric n ∈ ps → n < cs.count) :
    packed cs ((ps.map Piece.value).map (· % cs.count)) = packed cs (ps.map Piece.value) := by
  cases cs with
  | narrow =>
      have hlt : ∀ n ∈ ps.map Piece.value, n < Charset.narrow.count := List.forall_mem_map.2
        fun p hp => match p, hp with
          | .written n, hp => h.lt_of_written n hp
          | .numeric n, hp => hfits n hp
      rw [List.map_congr_left fun n hn => Nat.mod_eq_of_lt (hlt n hn), List.map_id']
  | wide16 =>
      rw [packed, getLastD_map_mod, Charset.count_eq, Charset.bits, unsignedLow_mod, packed]
  | wide32 =>
      rw [packed, getLastD_map_mod, Charset.count_eq, Charset.bits, unsignedLow_mod, packed]
  | long => rw [packed, getLastD_map_mod, Charset.count_eq, Charset.bits, signedLow_mod, packed]

theorem Splits.eq_nil_iff (h : Splits cs t ps) : ps = [] ↔ t = [] := by
  cases h <;> simp

end Packing

section Tokens

variable {src : Text} {t : Token} {cs : Charset} {ps : List Piece}

/-- The encodings, each with the letters that name it. -/
def encodings : List (Text × Charset) :=
  [(ascii "", .narrow), (ascii "u8", .narrow), (ascii "u", .wide16), (ascii "U", .wide32),
    (ascii "L", .long)]

/-- `Consists text cs ps` says that `text` is a constant of the encoding `cs` with the
characters `ps`. -/
def Consists (text : Text) (cs : Charset) (ps : List Piece) : Prop :=
  ∃ letters body, (letters, cs) ∈ encodings ∧
    text = letters ++ Byte.apostrophe :: (body ++ [Byte.apostrophe]) ∧ Splits cs body ps

theorem ofText_of_mem_encodings {letters : Text} (h : (letters, cs) ∈ encodings) (t : Text) :
    Charset.ofText (letters ++ Byte.apostrophe :: t) = (cs, Byte.apostrophe :: t) := by
  simp only [encodings, List.mem_cons, Prod.mk.injEq, List.not_mem_nil, or_false] at h
  obtain ⟨rfl, rfl⟩ | ⟨rfl, rfl⟩ | ⟨rfl, rfl⟩ | ⟨rfl, rfl⟩ | ⟨rfl, rfl⟩ :=
    h <;> rfl

theorem exists_mem_encodings {letters : Text} (h : letters ∈ Spelling.charsets) :
    ∃ cs, (letters, cs) ∈ encodings := by
  have hall : (Spelling.charsets.all fun letters =>
      (encodings.map Prod.fst).contains letters) = true := by decide
  have hmem : letters ∈ encodings.map Prod.fst := by
    simpa using List.all_eq_true.1 hall letters h
  obtain ⟨⟨_, cs⟩, hcs, rfl⟩ := List.mem_map.1 hmem
  exact ⟨cs, hcs⟩

/-- Every character token is a constant of some encoding and characters. -/
theorem exists_consists (ht : t ∈ (tokenize src).tokens) (hk : t.kind = .character) :
    ∃ cs ps, Consists t.text cs ps := by
  have hspells : Spells .character t.text := by
    have h := spells_of_mem_tokenize ht (by rw [Token.isSpace, hk]; rfl) (by rw [hk]; decide)
    rwa [hk] at h
  generalize t.text = text at hspells ⊢
  cases hspells with
  | @literal _ mark letters tail hquotes hletters htail =>
      cases hquotes
      obtain ⟨cs, hcs⟩ := exists_mem_encodings hletters
      obtain ⟨body, rfl⟩ := List.getLast?_eq_some_iff.1 (Lexer.getLast?_literalTail htail)
      obtain ⟨ps, hps⟩ := exists_splits cs htail
      exact ⟨cs, ps, letters, body, hcs, rfl, hps⟩

/-- What the token `t` of a constant with the characters `ps` evaluates to. -/
inductive Evaluates (t : Token) (cs : Charset) (ps : List Piece) : Except Error Value → Prop where
  | empty : ps = [] → Evaluates t cs ps (.error { fault := .emptyCharacter, pos := t.pos })
  | outOfRange {n : Nat} : .numeric n ∈ ps → 2 ^ cs.bits ≤ n →
      Evaluates t cs ps (.error { fault := .badEscape .outOfRange t.text, pos := t.pos })
  | badHex {n : Nat} : .numeric n ∈ ps → 2 ^ 64 ≤ n →
      Evaluates t cs ps (.error { fault := .badEscape .badHex t.text, pos := t.pos })
  | value {w : BitVec 64} : ps ≠ [] → (∀ n, .numeric n ∈ ps → n < 2 ^ cs.bits) →
      w.toInt = packed cs (ps.map Piece.value) → Evaluates t cs ps (.ok { word := w })

theorem Consists.evaluates (h : Consists t.text cs ps) : Evaluates t cs ps (character t) := by
  obtain ⟨letters, body, hcs, htext, hps⟩ := h
  have hof := ofText_of_mem_encodings hcs (body ++ [Byte.apostrophe])
  rw [← htext] at hof
  simp only [character, hof, List.drop_one, List.tail_cons, List.dropLast_concat]
  split
  · exact .empty (hps.eq_nil_iff.2 ‹_›)
  · rename_i hne
    have hreads := hps.reads
    generalize characters cs body = r at hreads
    cases hreads with
    | outOfRange hn hle => exact .outOfRange hn (by rwa [← Charset.count_eq])
    | badHex hn hle => exact .badHex hn hle
    | fits hfits =>
        refine .value (mt hps.eq_nil_iff.1 hne) (by rwa [← Charset.count_eq]) ?_
        have hlt : ∀ n ∈ (ps.map Piece.value).map (· % cs.count), n < 2 ^ cs.bits := by
          rw [← Charset.count_eq]
          exact List.forall_mem_map.2 fun n _ =>
            Nat.mod_lt n (Nat.lt_of_lt_of_le (by decide) cs.le_count)
        rw [← packed_mod hps hfits, ← toInt_widen hlt, List.map_map]
        rfl

section Evaluates

variable {r : Except Error Value}

theorem Evaluates.isError_iff (h : Evaluates t cs ps r) :
    (∃ e, r = .error e) ↔ ps = [] ∨ ∃ n, .numeric n ∈ ps ∧ 2 ^ cs.bits - 1 < n := by
  have hbits {n : Nat} : 2 ^ cs.bits - 1 < n ↔ 2 ^ cs.bits ≤ n := by
    have := Nat.two_pow_pos cs.bits
    omega
  simp only [hbits]
  cases h with
  | empty hps => exact ⟨fun _ => .inl hps, fun _ => ⟨_, rfl⟩⟩
  | outOfRange hn hle => exact ⟨fun _ => .inr ⟨_, hn, hle⟩, fun _ => ⟨_, rfl⟩⟩
  | badHex hn hle =>
      have hword : 2 ^ cs.bits ≤ 2 ^ 64 :=
        Nat.pow_le_pow_right (by decide) (by cases cs <;> decide)
      exact ⟨fun _ => .inr ⟨_, hn, Nat.le_trans hword hle⟩, fun _ => ⟨_, rfl⟩⟩
  | value hne hfits _ =>
      constructor
      · rintro ⟨e, he⟩
        cases he
      · rintro (hnil | ⟨n, hn, hle⟩)
        · exact absurd hnil hne
        · exact absurd (hfits n hn) (Nat.not_lt.2 hle)

theorem Evaluates.fault_of_error {e : Error} (h : Evaluates t cs ps (.error e)) :
    e.pos = t.pos ∧ (e.fault = .emptyCharacter ∨ e.fault = .badEscape .outOfRange t.text ∨
      e.fault = .badEscape .badHex t.text ∧ ∃ n, .numeric n ∈ ps ∧ 2 ^ 64 ≤ n) := by
  cases h with
  | empty _ => exact ⟨rfl, .inl rfl⟩
  | outOfRange _ _ => exact ⟨rfl, .inr (.inl rfl)⟩
  | badHex hn hle => exact ⟨rfl, .inr (.inr ⟨rfl, _, hn, hle⟩)⟩

theorem Evaluates.of_ok {v : Value} (h : Evaluates t cs ps (.ok v)) :
    v.unsigned = false ∧ v.word.toInt = packed cs (ps.map Piece.value) := by
  cases h with
  | value _ _ hw => exact ⟨rfl, hw⟩

end Evaluates

/-- Every character token that is scanned is a constant of characters and escape sequences between
two quotes. It fails if it has none of them or if a number in it does not fit a character, never
because of how an escape sequence is written; the value of any other is that of its packed
characters. -/
theorem character_of_mem_tokenize (ht : t ∈ (tokenize src).tokens) (hk : t.kind = .character) :
    (∃ cs ps, Consists t.text cs ps) ∧ ∀ cs ps, Consists t.text cs ps →
      2 ≤ (Charset.ofText t.text).2.length ∧
      ((∃ e, character t = .error e) ↔
        ps = [] ∨ ∃ n, .numeric n ∈ ps ∧ 2 ^ cs.bits - 1 < n) ∧
      (∀ e, character t = .error e → e.pos = t.pos ∧
        (e.fault = .emptyCharacter ∨ e.fault = .badEscape .outOfRange t.text ∨
          e.fault = .badEscape .badHex t.text ∧ ∃ n, .numeric n ∈ ps ∧ 2 ^ 64 ≤ n)) ∧
      ∀ v, character t = .ok v →
        v.unsigned = false ∧ v.word.toInt = packed cs (ps.map Piece.value) := by
  refine ⟨exists_consists ht hk, fun cs ps h => ?_⟩
  have heval := h.evaluates
  refine ⟨?_, heval.isError_iff, fun e he => ?_, fun v hv => ?_⟩
  · obtain ⟨letters, body, hcs, htext, -⟩ := h
    rw [htext, ofText_of_mem_encodings hcs]
    simp
  · rw [he] at heval
    exact heval.fault_of_error
  · rw [hv] at heval
    exact heval.of_ok

/-- Two narrow characters, the second one in octal with a line join between its digits. -/
theorem character_of_mem_tokenize_joined :
    ∃ t ∈ (tokenize (ascii "'a\\3\\\n77'")).tokens, t.text = ascii "'a\\377'" ∧
      ∃ v, character t = .ok v ∧ v.unsigned = false ∧ v.word.toInt = 97 * 256 + 255 := by
  have hscan : Source.content (Lexer.ofText (ascii "'a\\3\\\n77'")) =
      ([{ kind := .character, text := ascii "'a\\377'", pos := .start, length := 9 }], .eof) :=
    Source.content_of_runWithin (n := 3) (by decide +kernel)
  have hdenotes : Denotes 8 (ascii "377") 255 :=
    (Text.numeral_eq_ok_iff.1 (rfl : Text.numeral 8 256 (ascii "377") = .ok 255)).1
  have hconsists : Consists (ascii "'a\\377'") .narrow [.written 97, .numeric 255] :=
    ⟨[], ascii "a\\377", List.mem_cons_self, rfl,
      .byte rfl (by decide) (.octal hdenotes (by decide) (.inl rfl) .nil)⟩
  obtain ⟨t, ht, hk, htext⟩ : ∃ t ∈ (tokenize (ascii "'a\\3\\\n77'")).tokens,
      t.kind = .character ∧ t.text = ascii "'a\\377'" := by
    rw [tokenize_eq, hscan]
    exact ⟨_, List.mem_singleton_self _, rfl, rfl⟩
  obtain ⟨-, hiff, -, hok⟩ := (character_of_mem_tokenize ht hk).2 _ _ (htext ▸ hconsists)
  refine ⟨t, ht, htext, ?_⟩
  cases hv : character t with
  | error e => exact absurd (hiff.1 ⟨e, hv⟩) (by simp [Charset.bits])
  | ok v =>
      obtain ⟨hu, hw⟩ := hok v hv
      exact ⟨v, rfl, hu, hw.trans (by decide)⟩

end Tokens

end Constant
end CPreprocessor

import CPreprocessor.Text

/-!
Byte classes against each other. A fact about all bytes is a fact about 256 numbers.
-/

namespace CPreprocessor
namespace Byte

theorem forall_of_lt {p : UInt8 → Prop} (h : ∀ n < 256, p (UInt8.ofNat n)) (b : UInt8) :
    p b := by
  have := h b.toNat b.toNat_lt
  rwa [UInt8.ofNat_toNat] at this

/-- Bytes of identifiers are no white space, no quotes, no dots, no slashes and no backslashes. -/
theorem of_isIdent {b : UInt8} : isIdent b = true →
    isLineBreak b = false ∧ isBlank b = false ∧ b ≠ '/'.toUInt8 ∧ b ≠ quote ∧
      b ≠ apostrophe ∧ b ≠ '.'.toUInt8 ∧ b < 0x80 ∧ b ≠ backslash :=
  forall_of_lt (p := fun b => isIdent b = true → isLineBreak b = false ∧ isBlank b = false ∧
    b ≠ '/'.toUInt8 ∧ b ≠ quote ∧ b ≠ apostrophe ∧ b ≠ '.'.toUInt8 ∧
      b < 0x80 ∧ b ≠ backslash)
    (by decide +kernel) b

/-- Bytes outside ASCII are in none of the classes. -/
theorem of_le {b : UInt8} : 0x80 ≤ b →
    isLineBreak b = false ∧ isBlank b = false ∧ isIdent b = false ∧ b ≠ '/'.toUInt8 ∧
      b ≠ '.'.toUInt8 ∧ b ≠ quote ∧ b ≠ apostrophe ∧ b ≠ backslash :=
  forall_of_lt (p := fun b => 0x80 ≤ b → isLineBreak b = false ∧ isBlank b = false ∧
    isIdent b = false ∧ b ≠ '/'.toUInt8 ∧ b ≠ '.'.toUInt8 ∧ b ≠ quote ∧
      b ≠ apostrophe ∧
    b ≠ backslash) (by decide +kernel) b

/-- An identifier does not begin with a digit. -/
theorem not_isDigit_of_isIdentStart {b : UInt8} : isIdentStart b = true → isDigit b = false :=
  forall_of_lt (p := fun b => isIdentStart b = true → isDigit b = false) (by decide +kernel) b

theorem isIdent_of_isIdentStart {b : UInt8} (h : isIdentStart b = true) : isIdent b = true := by
  simp [isIdent, h]

theorem isIdent_of_isDigit {b : UInt8} (h : isDigit b = true) : isIdent b = true := by
  simp [isIdent, h]

theorem isIdent_of_isExponent {b : UInt8} (h : isExponent b = true) : isIdent b = true := by
  simp only [isExponent, Bool.or_eq_true, beq_iff_eq] at h
  obtain ((rfl | rfl) | rfl) | rfl := h <;> decide

theorem of_isSign {b : UInt8} (h : isSign b = true) :
    isIdent b = false ∧ b ≠ '.'.toUInt8 ∧ b ≠ apostrophe ∧ isLineBreak b = false := by
  simp only [isSign, Bool.or_eq_true, beq_iff_eq] at h
  obtain rfl | rfl := h <;> decide

theorem isLineBreak_eq_true {b : UInt8} (h : isLineBreak b = true) :
    b = lineFeed ∨ b = carriageReturn := by
  simpa [isLineBreak] using h

theorem isBlank_eq_true {b : UInt8} (h : isBlank b = true) :
    b = space ∨ b = tab ∨ b = verticalTab ∨ b = formFeed := by
  simpa [isBlank, or_assoc] using h

end Byte
end CPreprocessor

import CPreprocessor.Text

/-!
Numerals. Decimal numerals are written without superfluous zeros; hexadecimal ones have
a fixed width and lower case digits.
-/

namespace CPreprocessor
namespace Text

/-- The byte of a digit below sixteen. -/
def digit (d : Nat) : UInt8 :=
  if d < 10 then UInt8.ofNat (0x30 + d) else UInt8.ofNat (0x57 + d)

def decimal (n : Nat) : Text :=
  if n < 10 then [digit n] else decimal (n / 10) ++ [digit (n % 10)]

def signedDecimal : Int → Text
  | .ofNat n => decimal n
  | .negSucc n => '-'.toUInt8 :: decimal (n + 1)

/-- The low `width` hexadecimal digits of `n`. -/
def hexadecimal : (width n : Nat) → Text
  | 0, _ => []
  | width + 1, n => hexadecimal width (n / 16) ++ [digit (n % 16)]

/-- Why a numeral has no value. -/
inductive NumeralFault where
  | malformed
  | tooLarge
deriving DecidableEq, Repr

/-- Reads the remaining digits of a numeral after a beginning that denotes `n`. The first
obstacle from the left decides: a byte that is no digit of the base, or a value that
reaches `limit`. -/
def numeralFrom (base limit n : Nat) : Text → Except NumeralFault Nat
  | [] => .ok n
  | b :: t =>
    match Byte.digitValue? b with
    | none => .error .malformed
    | some d =>
      if base ≤ d then .error .malformed
      else if limit ≤ n * base + d then .error .tooLarge
      else numeralFrom base limit (n * base + d) t

/-- The number a nonempty digit sequence denotes, if it is below `limit`. -/
def numeral (base limit : Nat) : Text → Except NumeralFault Nat
  | [] => .error .malformed
  | b :: t => numeralFrom base limit 0 (b :: t)

end Text
end CPreprocessor

import CPreprocessor.Text.Decimal

/-!
Sizes for people to read: a number of at most three digits with a unit, and one decimal
place if the number is below ten.
-/

namespace CPreprocessor
namespace Size

/-- The units, each a thousand times the one before. -/
def units : List Text :=
  [ascii "B", ascii "kB", ascii "MB", ascii "GB", ascii "TB", ascii "PB", ascii "EB"]

/-- The number of tenths of `scale` in `n`, a half rounded up. -/
def tenths (n scale : Nat) : Nat :=
  (20 * n + scale) / (2 * scale)

/-- A number of tenths as a whole number, a half rounded to the even neighbour. -/
def whole (t : Nat) : Nat :=
  let q := t / 10
  if t % 10 < 5 ∨ (t % 10 = 5 ∧ q % 2 = 0) then q else q + 1

/-- A number of tenths, with its decimal place if it is below ten. -/
def amount (t : Nat) : Text :=
  if t < 100 then Text.decimal (t / 10) ++ ascii "." ++ Text.decimal (t % 10)
  else Text.decimal (whole t)

/-- The size in the largest of the units that it reaches, the first of which is `scale`. -/
def inUnits (n scale : Nat) : List Text → Text
  | [] => []
  | [unit] => amount (tenths n scale) ++ ascii " " ++ unit
  | unit :: next :: rest =>
    if n < 1000 * scale then amount (tenths n scale) ++ ascii " " ++ unit
    else inUnits n (1000 * scale) (next :: rest)

/-- The text for a number of bytes. -/
def text (n : Nat) : Text :=
  if n < 10 then Text.decimal n ++ ascii " B" else inUnits n 1 units

end Size
end CPreprocessor

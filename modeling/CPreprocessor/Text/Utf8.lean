import CPreprocessor.Text

/-!
UTF-8 characters inside byte texts. A text need not be UTF-8 as a whole: decoding takes
one character off its front, or reports that none starts there.
-/

namespace CPreprocessor
namespace Utf8

/-- Whether `b` continues a character. -/
def isTail (b : UInt8) : Bool :=
  0x80 ≤ b && b ≤ 0xbf

/-- Whether `b` may be the second byte of a character of three or four bytes that begins
with `a`. Overlong forms, surrogates and numbers above `0x10ffff` are excluded here. -/
def isSecond (a b : UInt8) : Bool :=
  isTail b
    && (a != 0xe0 || 0xa0 ≤ b)
    && (a != 0xed || b ≤ 0x9f)
    && (a != 0xf0 || 0x90 ≤ b)
    && (a != 0xf4 || b ≤ 0x8f)

/-- The low bits of a byte, of which there are `size` values. -/
def low (size : Nat) (b : UInt8) : Nat :=
  b.toNat % size

/-- The number of the character at the front of a text and the text after it. -/
def decode : Text → Option (Nat × Text)
  | [] => none
  | a :: t =>
    if a < 0x80 then some (a.toNat, t)
    else if 0xc2 ≤ a && a ≤ 0xdf then
      match t with
      | b :: t => if isTail b then some (low 0x20 a * 64 + low 0x40 b, t) else none
      | [] => none
    else if 0xe0 ≤ a && a ≤ 0xef then
      match t with
      | b :: c :: t =>
        if isSecond a b && isTail c then
          some ((low 0x10 a * 64 + low 0x40 b) * 64 + low 0x40 c, t)
        else none
      | _ => none
    else if 0xf0 ≤ a && a ≤ 0xf4 then
      match t with
      | b :: c :: d :: t =>
        if isSecond a b && isTail c && isTail d then
          some (((low 0x08 a * 64 + low 0x40 b) * 64 + low 0x40 c) * 64 + low 0x40 d, t)
        else none
      | _ => none
    else none

/-- The bytes of the character with number `n`. -/
def encode (n : Nat) : Text :=
  if n < 0x80 then [UInt8.ofNat n]
  else if n < 0x800 then [UInt8.ofNat (0xc0 + n / 64), UInt8.ofNat (0x80 + n % 64)]
  else if n < 0x10000 then
    [UInt8.ofNat (0xe0 + n / 4096), UInt8.ofNat (0x80 + n / 64 % 64),
      UInt8.ofNat (0x80 + n % 64)]
  else
    [UInt8.ofNat (0xf0 + n / 262144), UInt8.ofNat (0x80 + n / 4096 % 64),
      UInt8.ofNat (0x80 + n / 64 % 64), UInt8.ofNat (0x80 + n % 64)]

theorem length_lt_of_decode {t r : Text} {n : Nat} (h : decode t = some (n, r)) :
    r.length < t.length := by
  unfold decode at h
  repeat' split at h
  all_goals simp_all
  all_goals grind

/-- One chunk of a text: a character with its number, or a byte that starts none. -/
inductive Chunk where
  | char (number : Nat) (spelling : Text)
  | byte (b : UInt8)
deriving DecidableEq, Repr

def Chunk.spelling : Chunk → Text
  | .char _ s => s
  | .byte b => [b]

/-- Splits a text into characters and stray bytes. -/
def chunks (t : Text) : List Chunk :=
  match t with
  | [] => []
  | b :: r =>
    match _h : decode (b :: r) with
    | some (n, rest) => .char n ((b :: r).take ((b :: r).length - rest.length)) :: chunks rest
    | none => .byte b :: chunks r
termination_by t.length
decreasing_by
  · exact length_lt_of_decode _h
  · simp

/-- A text is UTF-8 if it has no stray bytes. -/
def valid (t : Text) : Bool :=
  (chunks t).all fun u => match u with
    | .char _ _ => true
    | .byte _ => false

/-- The character that stands for bytes that are no character. -/
def replacement : Nat :=
  0xfffd

/-- The characters of a text, each stray byte replaced. -/
def characters (t : Text) : List Text :=
  (chunks t).map fun u => match u with
    | .char _ s => s
    | .byte _ => encode replacement

end Utf8
end CPreprocessor

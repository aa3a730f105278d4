import CPreprocessor.Fault

/-!
The values of conditions: words of 64 bits with a signedness. Arithmetic wraps, an
operation with an unsigned operand is unsigned, and comparisons yield zero or one.
-/

namespace CPreprocessor

/-- A word of 64 bits, read as unsigned or in two's complement. -/
structure Value where
  word : BitVec 64
  unsigned : Bool := false
deriving DecidableEq, Repr

namespace Value

def zero : Value :=
  { word := 0 }

def isTrue (v : Value) : Bool :=
  v.word != 0

/-- Signed one or zero. -/
def ofBool (b : Bool) : Value :=
  { word := if b then 1 else 0 }

/-- The number a value denotes. -/
def toInt (v : Value) : Int :=
  if v.unsigned then v.word.toNat else v.word.toInt

/-- A decimal numeral, with the suffix of unsigned constants. -/
def text (v : Value) : Text :=
  if v.unsigned then Text.decimal v.word.toNat ++ ascii "u"
  else Text.signedDecimal v.word.toInt

end Value

/-- The binary operators of conditions. -/
inductive BinaryOp where
  | or
  | and
  | bitOr
  | bitXor
  | bitAnd
  | eq
  | ne
  | lt
  | gt
  | le
  | ge
  | shl
  | shr
  | add
  | sub
  | mul
  | div
  | rem
deriving DecidableEq, Repr

namespace BinaryOp

def all : List BinaryOp :=
  [or, and, bitOr, bitXor, bitAnd, eq, ne, lt, gt, le, ge, shl, shr, add, sub, mul, div, rem]

def spelling : BinaryOp → Text
  | or => ascii "||"
  | and => ascii "&&"
  | bitOr => ascii "|"
  | bitXor => ascii "^"
  | bitAnd => ascii "&"
  | eq => ascii "=="
  | ne => ascii "!="
  | lt => ascii "<"
  | gt => ascii ">"
  | le => ascii "<="
  | ge => ascii ">="
  | shl => ascii "<<"
  | shr => ascii ">>"
  | add => ascii "+"
  | sub => ascii "-"
  | mul => ascii "*"
  | div => ascii "/"
  | rem => ascii "%"

/-- How tightly the operator binds, from one to ten. -/
def level : BinaryOp → Nat
  | or => 1
  | and => 2
  | bitOr => 3
  | bitXor => 4
  | bitAnd => 5
  | eq | ne => 6
  | lt | gt | le | ge => 7
  | shl | shr => 8
  | add | sub => 9
  | mul | div | rem => 10

def ofSpelling? (t : Text) : Option BinaryOp :=
  all.find? fun op => op.spelling == t

/-- Whether the right operand counts after a left operand `l`. -/
def needsRight (op : BinaryOp) (l : Value) : Bool :=
  match op with
  | or => !l.isTrue
  | and => l.isTrue
  | _ => true

end BinaryOp

/-- The prefix operators of conditions. -/
inductive UnaryOp where
  | plus
  | minus
  | complement
  | negation
deriving DecidableEq, Repr

namespace UnaryOp

def all : List UnaryOp :=
  [plus, minus, complement, negation]

def spelling : UnaryOp → Text
  | plus => ascii "+"
  | minus => ascii "-"
  | complement => ascii "~"
  | negation => ascii "!"

def ofSpelling? (t : Text) : Option UnaryOp :=
  all.find? fun op => op.spelling == t

def apply : UnaryOp → Value → Value
  | plus, v => v
  | minus, v => { v with word := -v.word }
  | complement, v => { v with word := ~~~v.word }
  | negation, v => .ofBool !v.isTrue

end UnaryOp

namespace Value

/-- The order of two values of a common signedness. -/
def less (unsigned : Bool) (l r : Value) : Bool :=
  if unsigned then l.word.ult r.word else l.word.slt r.word

/-- Quotient and remainder toward zero of two values of a common signedness. -/
def divide (unsigned : Bool) (l r : Value) : BitVec 64 × BitVec 64 :=
  if unsigned then (l.word.udiv r.word, l.word.umod r.word)
  else (l.word.sdiv r.word, l.word.srem r.word)

/-- A shift to the left. Bits shifted out are lost. -/
def shiftLeft (l : Value) (n : Nat) : Value :=
  { l with word := if n < 64 then l.word <<< n else 0 }

/-- A shift to the right. A shift by less than the width fills with the sign of a signed
operand and with zeros otherwise; a wider one fills with the highest bit. -/
def shiftRight (l : Value) (n : Nat) : Value :=
  { l with
    word := if l.unsigned = true ∧ n < 64 then l.word >>> n
      else l.word.sshiftRight (min n 63) }

/-- A shift, which keeps the signedness of the left operand. In an operand that does not
count a negative count yields zero. -/
def shift (left live : Bool) (pos : Pos) (l r : Value) : Except Error Value :=
  if r.unsigned = false ∧ r.word.toInt < 0 then
    if live then .error { fault := .negativeShift r.word.toInt, pos }
    else .ok { word := 0, unsigned := l.unsigned }
  else if left then .ok (l.shiftLeft r.word.toNat)
  else .ok (l.shiftRight r.word.toNat)

/-- Applies a binary operator at `pos`. Only an operation that counts can fail. -/
def apply (op : BinaryOp) (live : Bool) (pos : Pos) (l r : Value) : Except Error Value :=
  let unsigned := l.unsigned || r.unsigned
  match op with
  | .or => .ok (ofBool (l.isTrue || r.isTrue))
  | .and => .ok (ofBool (l.isTrue && r.isTrue))
  | .bitOr => .ok { word := l.word ||| r.word, unsigned }
  | .bitXor => .ok { word := l.word ^^^ r.word, unsigned }
  | .bitAnd => .ok { word := l.word &&& r.word, unsigned }
  | .eq => .ok (ofBool (l.word == r.word))
  | .ne => .ok (ofBool (l.word != r.word))
  | .lt => .ok (ofBool (less unsigned l r))
  | .gt => .ok (ofBool (less unsigned r l))
  | .le => .ok (ofBool !(less unsigned r l))
  | .ge => .ok (ofBool !(less unsigned l r))
  | .shl => shift true live pos l r
  | .shr => shift false live pos l r
  | .add => .ok { word := l.word + r.word, unsigned }
  | .sub => .ok { word := l.word - r.word, unsigned }
  | .mul => .ok { word := l.word * r.word, unsigned }
  | .div =>
    if r.isTrue then .ok { word := (divide unsigned l r).1, unsigned }
    else if live then .error { fault := .divisionByZero, pos }
    else .ok { word := 0, unsigned }
  | .rem =>
    if r.isTrue then .ok { word := (divide unsigned l r).2, unsigned }
    else if live then .error { fault := .divisionByZero, pos }
    else .ok { word := 0, unsigned }

end Value
end CPreprocessor

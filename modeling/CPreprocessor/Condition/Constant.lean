import CPreprocessor.Condition.Value

/-!
The constants of conditions. Integer constants may be hexadecimal, binary, octal or
decimal; character constants pack the values of their characters into a word.
-/

namespace CPreprocessor
namespace Constant

/-- The number of values of a word. -/
def wordCount : Nat :=
  0x10000000000000000

/-- The suffixes of integer constants, in lower case. -/
def suffixes : List Text :=
  ["", "u", "l", "ul", "lu", "ll", "ull", "llu"].map ascii

def isSuffixByte (b : UInt8) : Bool :=
  (ascii "uUlL").contains b

/-- The digits of an integer constant and its suffix. -/
def splitSuffix (t : Text) : Text × Text :=
  let suffix := (t.reverse.takeWhile isSuffixByte).reverse
  (t.take (t.length - suffix.length), suffix)

/-- A numeral and its base, or nothing for a floating constant. -/
def baseAndDigits (t : Text) : Option (Nat × Text) :=
  match t with
  | 0x30 :: b :: digits =>
    if b = 'x'.toUInt8 ∨ b = 'X'.toUInt8 then
      if digits.any (ascii ".pP").contains then none else some (16, digits)
    else if b = 'b'.toUInt8 ∨ b = 'B'.toUInt8 then some (2, digits)
    else if t.any (ascii ".eE").contains then none
    else some (8, b :: digits)
  | _ => if t.any (ascii ".eE").contains then none else some (10, t)

/-- The value of a number token. It is unsigned if its suffix says so or if it does not fit
a signed word. -/
def number (t : Token) : Except Error Value :=
  let fail (fault : Fault) : Except Error Value := .error { fault, pos := t.pos }
  let (digits, suffix) := splitSuffix (t.text.filter (· != Byte.apostrophe))
  match baseAndDigits digits with
  | none => fail (.floatingConstant t.text)
  | some (base, digits) =>
    if !suffixes.contains (suffix.map Byte.toLower) then fail (.badSuffix suffix)
    else match Text.numeral base wordCount digits with
      | .error .tooLarge => fail (.constantTooLarge t.text)
      | .error .malformed => fail (.badConstant t.text)
      | .ok n =>
        .ok { word := BitVec.ofNat 64 n
              unsigned := wordCount ≤ 2 * n || (suffix.map Byte.toLower).contains 'u'.toUInt8 }

/-- The encodings of character constants. -/
inductive Charset where
  | narrow
  | wide16
  | wide32
  | long
deriving DecidableEq, Repr

namespace Charset

/-- The bits one character takes. -/
def bits : Charset → Nat
  | narrow => 8
  | wide16 => 16
  | wide32 | long => 32

/-- The number of values of one character. -/
def count : Charset → Nat
  | narrow => 0x100
  | wide16 => 0x10000
  | wide32 | long => 0x100000000

/-- The encoding a character constant names and the constant after its letters. -/
def ofText : Text → Charset × Text
  | [] => (narrow, [])
  | b :: t =>
    if b = 'u'.toUInt8 then
      if t.head? = some '8'.toUInt8 then (narrow, t.drop 1) else (wide16, t)
    else if b = 'U'.toUInt8 then (wide32, t)
    else if b = 'L'.toUInt8 then (long, t)
    else (narrow, b :: t)

end Charset

/-- The value of an escape sequence of one letter. -/
def simpleEscape? (b : UInt8) : Option Nat :=
  if (ascii "'\"?\\").contains b then some b.toNat
  else [('a', 0x07), ('b', 0x08), ('f', 0x0c), ('n', 0x0a), ('r', 0x0d), ('t', 0x09),
      ('v', 0x0b)].findSome? fun (c, n) => if c.toUInt8 = b then some n else none

/-- The number that exactly `width` hexadecimal digits denote, and the text after them. -/
def characterName (width : Nat) (t : Text) : Except EscapeFault (Nat × Text) :=
  if t.length < width then .error .badCharacterName
  else match Text.numeral 16 0x100000000 (t.take width) with
    | .ok n => .ok (n, t.drop width)
    | .error _ => .error .badCharacterName

/-- The value of the escape sequence after a backslash and the text after it. -/
def escape : Text → Except EscapeFault (Nat × Text)
  | [] => .error .incomplete
  | b :: t =>
    match simpleEscape? b with
    | some n => .ok (n, t)
    | none =>
      if b = 'x'.toUInt8 then
        match Text.numeral 16 wordCount (t.takeWhile Byte.isHex) with
        | .ok n => .ok (n, t.dropWhile Byte.isHex)
        | .error _ => .error .badHex
      else if b = 'u'.toUInt8 then characterName 4 t
      else if b = 'U'.toUInt8 then characterName 8 t
      else if Byte.isOctal b then
        let digits := b :: (t.take 2).takeWhile Byte.isOctal
        .ok (digits.foldl (fun n d => n * 8 + (d.toNat - 0x30)) 0, t.drop (digits.length - 1))
      else .error .unknown

/-- The first character of a nonempty text, not an escape sequence, cut to the bits of the
encoding, and the text after it. A byte that starts no character counts as U+FFFD. -/
def plainCharacter (cs : Charset) (b : UInt8) (t : Text) : Nat × Text :=
  if cs.bits = 8 then (b.toNat, t)
  else match Utf8.decode (b :: t) with
    | some (n, rest) => (n % cs.count, rest)
    | none => (0xfffd, t)

theorem length_le_of_escape {t rest : Text} {n : Nat} (h : escape t = .ok (n, rest)) :
    rest.length ≤ t.length := by
  have hd : ∀ s : Text, (s.dropWhile Byte.isHex).length ≤ s.length :=
    fun s => (List.dropWhile_suffix Byte.isHex).length_le
  cases t with
  | nil => simp [escape] at h
  | cons b t =>
    have := hd t
    simp only [escape, characterName] at h
    repeat' split at h
    all_goals first
      | contradiction
      | (simp only [Except.ok.injEq, Prod.mk.injEq] at h
         obtain ⟨_, rfl⟩ := h
         simp only [List.length_cons, List.length_drop]
         omega)

theorem length_le_of_plainCharacter (cs : Charset) (b : UInt8) (t : Text) :
    (plainCharacter cs b t).2.length ≤ t.length := by
  unfold plainCharacter
  split
  · simp
  · split
    · rename_i n rest h
      have := Utf8.length_lt_of_decode h
      simp only [List.length_cons] at this
      simp only
      omega
    · simp

/-- The values of the characters between the quotes of a constant. -/
def characters (cs : Charset) (t : Text) : Except EscapeFault (List Nat) :=
  match t with
  | [] => .ok []
  | b :: t =>
    if b = Byte.backslash then
      match _h : escape t with
      | .error e => .error e
      | .ok (n, rest) =>
        if cs.count ≤ n then .error .outOfRange
        else (characters cs rest).map (n :: ·)
    else
      let c := plainCharacter cs b t
      (characters cs c.2).map (c.1 :: ·)
termination_by t.length
decreasing_by
  · have := length_le_of_escape _h
    simp only [List.length_cons]
    omega
  · have := length_le_of_plainCharacter cs b t
    simp only [List.length_cons]
    omega

/-- Packs character values into a word, the last into the lowest bits. -/
def pack (bits : Nat) (ns : List Nat) : BitVec 64 :=
  ns.foldl (fun w n => w <<< bits ||| BitVec.ofNat 64 n) 0

/-- The value of packed characters: a single narrow character is a signed byte, several are a
signed word of 32 bits, and wide characters keep their low bits. -/
def widen (cs : Charset) (ns : List Nat) : BitVec 64 :=
  let w := pack cs.bits ns
  match cs with
  | .narrow =>
    if ns.length = 1 then (w.setWidth 8).signExtend 64 else (w.setWidth 32).signExtend 64
  | .wide16 => (w.setWidth 16).setWidth 64
  | .wide32 => (w.setWidth 32).setWidth 64
  | .long => (w.setWidth 32).signExtend 64

/-- The value of a character token. -/
def character (t : Token) : Except Error Value :=
  let (cs, quoted) := Charset.ofText t.text
  let body := (quoted.drop 1).dropLast
  if body = [] then .error { fault := .emptyCharacter, pos := t.pos }
  else match characters cs body with
    | .error cause => .error { fault := .badEscape cause t.text, pos := t.pos }
    | .ok ns => .ok { word := widen cs ns }

end Constant
end CPreprocessor

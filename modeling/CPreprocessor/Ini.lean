import CPreprocessor.Text.Blank
import CPreprocessor.Text.Quoted

/-!
Settings documents. A document holds keys with values in named groups. A value can refer to
the value of another key by `%(key)s`.
-/

namespace CPreprocessor
namespace Ini

/-- Why a text is no settings document. -/
inductive Fault where
  | unclosedHeader (line : Text)
  | unnamedGroup
  | unclosedKey (line : Text)
  | noDelimiter (line : Text)
  | noKey (line : Text)
  | blankKey
  | unclosedValue (first last : Text)
deriving DecidableEq, Repr

def Fault.message : Fault → Text
  | unclosedHeader line => ascii "unclosed section: " ++ line
  | unnamedGroup => ascii "empty section name"
  | unclosedKey line => ascii "missing closing key quote: " ++ line
  | noDelimiter line => ascii "key-value delimiter not found: " ++ line
  | noKey line => ascii "empty key name: " ++ line
  | blankKey => ascii "error creating new key: empty key name"
  | unclosedValue first last =>
    ascii "missing closing key quote from " ++ Text.quoted first ++ ascii " to "
      ++ Text.quoted last

/-- A key of a group and its value. -/
structure Entry where
  group : Text
  key : Text
  value : Text
deriving DecidableEq, Repr

/-- The keys in the order in which they first occur. No key occurs twice in a group. -/
structure Document where
  entries : List Entry := []
deriving DecidableEq, Repr

/-- The group of the keys in front of all headers. -/
def defaultGroup : Text :=
  ascii "DEFAULT"

/-- The key in the first reference of a text. -/
def reference? : Text → Option Text
  | [] => none
  | b :: t =>
    match Text.dropStart? (ascii "%(") (b :: t) with
    | none => reference? t
    | some r =>
      let key := r.takeWhile (· != ')'.toUInt8)
      if key != [] && (Text.dropStart? (ascii ")s") (r.drop key.length)).isSome then some key
      else reference? t

namespace Document

def get? (group key : Text) (d : Document) : Option Text :=
  (d.entries.find? fun e => e.group == group && e.key == key).map Entry.value

/-- Gives a key a value. A key that has one keeps its place. -/
def set (group key value : Text) (d : Document) : Document :=
  if (d.get? group key).isSome then
    ⟨d.entries.map fun e => if e.group = group ∧ e.key = key then { e with value } else e⟩
  else ⟨d.entries ++ [⟨group, key, value⟩]⟩

/-- The keys of a group with their values. -/
def items (group : Text) (d : Document) : List (Text × Text) :=
  (d.entries.filter fun e => e.group == group).map fun e => (e.key, e.value)

/-- The value that a reference in the value of `key` denotes: that of another key of the
group, or else of the default group. -/
def referent? (group key name : Text) (d : Document) : Option Text :=
  (if name = key then none else d.get? group name).or (d.get? defaultGroup name)

/-- Replaces up to `limit` references in the value of `key`, until one denotes nothing. -/
def resolve (group key : Text) (d : Document) : (limit : Nat) → Text → Text
  | 0, t => t
  | limit + 1, t =>
    match reference? t with
    | none => t
    | some name =>
      match d.referent? group key name with
      | none => t
      | some v => resolve group key d limit (Text.replace (ascii "%(" ++ name ++ ascii ")s") v t)

/-- The number of references after which a circle of them is given up. -/
def referenceLimit : Nat :=
  99

/-- The value of a key with its references replaced; a missing key is empty. -/
def value (group key : Text) (d : Document) : Text :=
  d.resolve group key referenceLimit ((d.get? group key).getD [])

end Document
end Ini
end CPreprocessor

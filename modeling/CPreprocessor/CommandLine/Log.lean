import CPreprocessor.Text.Quoted

/-!
The log: one line per entry, a sequence of keys and values.
-/

namespace CPreprocessor
namespace Log

inductive Level where
  | debug
  | info
  | warning
  | error
deriving DecidableEq, Repr

namespace Level

def name : Level → Text
  | debug => ascii "debug"
  | info => ascii "info"
  | warning => ascii "warning"
  | error => ascii "error"

def rank : Level → Nat
  | debug => 0
  | info => 1
  | warning => 2
  | error => 3

end Level

/-- A message with fields that tell what it is about. -/
structure Entry where
  level : Level
  message : Text
  fields : List (Text × Text) := []
deriving DecidableEq, Repr

/-- The bytes that a value may hold without being quoted. -/
def isPlain (b : UInt8) : Bool :=
  Byte.isLetter b || Byte.isDigit b || (ascii "-._/@^+").contains b

/-- A value, in quotes if it has to be. -/
def value (t : Text) : Text :=
  if t.all isPlain then t else Text.quoted t

def field (key v : Text) : Text :=
  key ++ ascii "=" ++ value v

namespace Entry

def line (e : Entry) : Text :=
  let fields := (ascii "level", e.level.name) :: (ascii "msg", e.message) :: e.fields
  (ascii " ").intercalate (fields.map fun (k, v) => field k v) ++ [Byte.lineFeed]

end Entry

/-- The lines of the entries that reach a level. -/
def render (threshold : Level) (es : List Entry) : Text :=
  (es.filter fun e => threshold.rank ≤ e.level.rank).flatMap Entry.line

end Log
end CPreprocessor

import CPreprocessor.Ini

/-!
Reading settings documents line by line. A line is blank, a comment, a header in brackets
or a key with a value. A value in back quotes or triple quotes goes on to the line that
closes it, and one that ends in a backslash goes on on the next line.
-/

namespace CPreprocessor
namespace Ini

/-- A value that its line does not complete: a quoted one with the line it began on and the
line last read, or one to which the next line is joined. -/
inductive Unfinished where
  | quoted (mark first value last : Text)
  | joined (value : Text)
deriving DecidableEq, Repr

/-- What reading a line of a value gives. -/
inductive Reading where
  | complete (value : Text)
  | unfinished (u : Unfinished)
deriving DecidableEq, Repr

namespace Reading

/-- A value that is not quoted: a backslash at its end asks for the next line. -/
def plain (t : Text) : Reading :=
  if t.getLast? = some Byte.backslash then .unfinished (.joined t.dropLast) else .complete t

def tripleQuote : Text :=
  ascii "\"\"\""

/-- The quote that a value begins with. -/
def mark? (t : Text) : Option Text :=
  if 3 < t.length && (Text.dropStart? tripleQuote t).isSome then some tripleQuote
  else if t.head? = some Byte.backquote then some [Byte.backquote]
  else none

/-- Reads the line that a value begins on. A quoted value ends at the last such quote. -/
def ofLine (t : Text) : Reading :=
  let line := Text.trimLeft t
  match mark? line with
  | none => plain (Text.trim line)
  | some mark =>
    let rest := line.drop mark.length
    match Text.splitAtLast? mark rest with
    | some (value, _) => .complete value
    | none => .unfinished (.quoted mark line rest [])

end Reading

/-- Reads the next line of a value. -/
def Unfinished.read (line : Text) : Unfinished → Reading
  | quoted mark first value _ =>
    match Text.splitAtLast? mark line with
    | some (l, _) => .complete (value ++ l)
    | none => .unfinished (.quoted mark first (value ++ line) line)
  | joined value =>
    match Text.trim line with
    | [] => .complete value
    | next => .plain (value ++ next)

/-- The quote that a key begins with. -/
def keyMark? (line : Text) : Option Text :=
  if 6 < line.length && (Text.dropStart? Reading.tripleQuote line).isSome then
    some Reading.tripleQuote
  else if line.head? = some Byte.quote then some [Byte.quote]
  else if line.head? = some Byte.backquote then some [Byte.backquote]
  else none

/-- Splits a line into its key and what follows the delimiter. -/
def splitKey (line : Text) : Except Fault (Text × Text) :=
  match keyMark? line with
  | some mark =>
    match Text.splitAt? mark (line.drop mark.length) with
    | none => .error (.unclosedKey line)
    | some (key, rest) =>
      match rest.splitFirst '='.toUInt8 with
      | none => .error (.noDelimiter line)
      | some (_, value) => .ok (key.trim, value)
  | none =>
    match line.splitFirst '='.toUInt8 with
    | none => .error (.noDelimiter line)
    | some ([], _) => .error (.noKey line)
    | some (key, value) => .ok (key.trim, value)

/-- The document read so far, the group under way, the number for the next key called `-`,
and a key whose value is not complete. -/
structure Progress where
  document : Document := {}
  group : Text := defaultGroup
  count : Nat := 1
  unfinished : Option (Text × Unfinished) := none
deriving DecidableEq, Repr

namespace Progress

/-- Stores a value. -/
def store (key value : Text) (p : Progress) : Except Fault Progress :=
  if key = [] then .error .blankKey
  else .ok { p with document := p.document.set p.group key value, unfinished := none }

/-- Stores a value if it is complete. -/
def settle (key : Text) (r : Reading) (p : Progress) : Except Fault Progress :=
  match r with
  | .complete value => p.store key value
  | .unfinished u => .ok { p with unfinished := some (key, u) }

/-- Begins the group of a header, the rest of whose line after the bracket is given. -/
def header (line rest : Text) (p : Progress) : Except Fault Progress :=
  match Text.splitAtLast? (ascii "]") rest with
  | none => .error (.unclosedHeader line)
  | some ([], _) => .error .unnamedGroup
  | some (group, _) => .ok { p with group, count := 1 }

/-- Gives the key `-` its number. -/
def number (key : Text) (p : Progress) : Text × Progress :=
  if key = ascii "-" then
    (ascii "#" ++ Text.decimal p.count, { p with count := p.count + 1 })
  else (key, p)

def line (p : Progress) (l : Text) : Except Fault Progress :=
  match p.unfinished with
  | some (key, u) => p.settle key (u.read l)
  | none =>
    match Text.trimLeft l with
    | [] => .ok p
    | b :: rest =>
      if b = '#'.toUInt8 ∨ b = ';'.toUInt8 then .ok p
      else if b = '['.toUInt8 then p.header (b :: rest) rest
      else do
        let (key, value) ← splitKey (b :: rest)
        let (key, p) := p.number key
        p.settle key (.ofLine value)

/-- Completes what the end of the text completes. -/
def finish (p : Progress) : Except Fault Document :=
  match p.unfinished with
  | none => .ok p.document
  | some (_, .quoted _ first _ last) => .error (.unclosedValue first last)
  | some (key, .joined value) => (p.store key value).map Progress.document

end Progress

/-- Drops a byte order mark. -/
def dropMark (t : Text) : Text :=
  let marks : List Text := [[0xef, 0xbb, 0xbf], [0xfe, 0xff], [0xff, 0xfe]]
  (marks.findSome? fun m => Text.dropStart? m t).getD t

/-- Reads a document. -/
def parse (t : Text) : Except Fault Document := do
  let p ← (Text.lines (dropMark t)).foldlM Progress.line {}
  p.finish

end Ini
end CPreprocessor

import CPreprocessor.Macro

/-!
Macro tables. A table maps names to macros, one per name; a new definition replaces an
earlier one of the same name.
-/

namespace CPreprocessor

/-- The macros that are defined, the latest definition first. -/
structure Table where
  entries : List Macro := []
deriving DecidableEq, Repr

namespace Table

def empty : Table :=
  {}

def lookup (name : Text) (T : Table) : Option Macro :=
  T.entries.find? fun m => m.name == name

def isDefined (name : Text) (T : Table) : Bool :=
  (T.lookup name).isSome

/-- Removes a macro if it is defined. -/
def undef (name : Text) (T : Table) : Table :=
  ⟨T.entries.filter fun m => m.name != name⟩

/-- Puts a macro in the place of an earlier one of its name. -/
def insert (m : Macro) (T : Table) : Table :=
  ⟨m :: (T.undef m.name).entries⟩

/-- Defines a macro, its body trimmed, if it obeys the rules. -/
def define (m : Macro) (T : Table) : Except Error Table :=
  let m := { m with body := Token.trim m.body }
  match m.error? with
  | some e => .error e
  | none => .ok (T.insert m)

/-- The names of the macros in byte order. -/
def names (T : Table) : List Text :=
  Text.sort (T.entries.map Macro.name)

/-- The macros in the byte order of their names. -/
def sorted (T : Table) : List Macro :=
  T.entries.mergeSort fun a b => Text.le a.name b.name

def size (T : Table) : Nat :=
  T.entries.length

end Table
end CPreprocessor

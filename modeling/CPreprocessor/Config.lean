import CPreprocessor.Failure
import CPreprocessor.Ini.Parser
import CPreprocessor.Preprocessor

/-!
Configurations: macros and settings taken from a settings document. The group
`preprocessor` says whether unknown directives are kept and which macros are removed; the
keys of the group `define` are macro heads, and their values are taken as they stand.
-/

namespace CPreprocessor

/-- Settings for a preprocessor. -/
structure Config where
  keepUnknown : Bool := false
  defines : List (Text × Text) := []
  undefs : List Text := []
deriving DecidableEq, Repr

namespace Config

/-- The words for a truth value. -/
def truth? (t : Text) : Option Bool :=
  if ["1", "t", "T", "true", "TRUE", "True", "YES", "yes", "Yes", "y", "ON", "on",
    "On"].any (ascii · == t) then some true
  else if ["0", "f", "F", "false", "FALSE", "False", "NO", "no", "No", "n", "OFF", "off",
    "Off"].any (ascii · == t) then some false
  else none

/-- Splits characters at commas after the beginning `part`. A backslash keeps a comma or a
backslash after it from its meaning, and one that is the last character is dropped. -/
def splitList (part : Text) : List Text → List Text
  | [] => [part]
  | [c] => if c = ascii "\\" ∨ c = ascii "," then [part] else [part ++ c]
  | c :: d :: rest =>
    if c = ascii "\\" then
      splitList (if d = ascii "\\" ∨ d = ascii "," then part ++ d else part ++ c ++ d) rest
    else if c = ascii "," then part :: splitList [] (d :: rest)
    else splitList (part ++ c) (d :: rest)

/-- The names in a list, without the white space around them. -/
def names (t : Text) : List Text :=
  ((splitList [] (Utf8.characters t)).map Text.trim).filter (· != [])

/-- The group of settings. -/
def settings : Text :=
  ascii "preprocessor"

/-- The key that says whether unknown directives are kept. -/
def keepKey : Text :=
  ascii "keep_unknown_directives"

/-- The configuration a document describes. The truth value is false if it is missing or no
truth value, also where the list of names refers to it. -/
def ofDocument (d : Ini.Document) : Config :=
  let keep := truth? (d.value settings keepKey)
  let d := if keep.isNone then d.set settings keepKey (ascii "false") else d
  { keepUnknown := keep.getD false
    defines := d.items (ascii "define")
    undefs := names (d.value settings (ascii "undef")) }

/-- Reads a configuration. -/
def load (t : Text) : Except Failure Config :=
  match Ini.parse t with
  | .error f => .error (.during .loadConfig (.settings f))
  | .ok d => .ok (ofDocument d)

/-- Defines macros, up to the first error. -/
def defineAll (p : Preprocessor) : List (Text × Text) → Option Failure × Preprocessor
  | [] => (none, p)
  | (name, value) :: rest =>
    match p.define (name ++ ascii "=" ++ value) with
    | (some e, p) => (some (.during (.define name) (.source e)), p)
    | (none, p) => defineAll p rest

/-- Removes macros, up to the first error. -/
def undefAll (p : Preprocessor) : List Text → Option Failure × Preprocessor
  | [] => (none, p)
  | name :: rest =>
    match p.undef name with
    | (some e, p) => (some (.during (.undef name) (.source e)), p)
    | (none, p) => undefAll p rest

/-- Defines and then removes the configured macros. Unknown directives that were kept before
are kept. -/
def apply (c : Config) (p : Preprocessor) : Option Failure × Preprocessor :=
  match defineAll { p with keepUnknown := p.keepUnknown || c.keepUnknown } c.defines with
  | (some f, p) => (some f, p)
  | (none, p) => undefAll p c.undefs

end Config
end CPreprocessor

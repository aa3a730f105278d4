import CPreprocessor.Failure

/-!
The command line. Flags come first, with one dash or two; the first argument that is no
flag begins the names of the inputs, and so does the one after `--`.
-/

namespace CPreprocessor
namespace CommandLine

/-- Flags that take a value. -/
inductive Setting where
  | define
  | undef
  | config
  | output
deriving DecidableEq, Repr

/-- Flags that are on or off. -/
inductive Switch where
  | tokens
  | keepUnknown
  | verbose
  | quiet
deriving DecidableEq, Repr

inductive Flag where
  | setting (s : Setting)
  | switch (s : Switch)
deriving DecidableEq, Repr

namespace Flag

def all : List Flag :=
  [setting .define, setting .undef, setting .config, setting .output, switch .tokens,
    switch .keepUnknown, switch .verbose, switch .quiet]

/-- The names of a flag, the long one first. -/
def names : Flag → List Text
  | setting .define => [ascii "define", ascii "D"]
  | setting .undef => [ascii "undef", ascii "U"]
  | setting .config => [ascii "config", ascii "c"]
  | setting .output => [ascii "output", ascii "o"]
  | switch .tokens => [ascii "tokens"]
  | switch .keepUnknown => [ascii "keep-unknown"]
  | switch .verbose => [ascii "verbose", ascii "v"]
  | switch .quiet => [ascii "quiet", ascii "q"]

def ofName? (name : Text) : Option Flag :=
  all.find? fun f => f.names.contains name

end Flag

/-- What the arguments ask for. -/
structure Options where
  defines : List Text := []
  undefs : List Text := []
  config : Text := []
  output : Text := []
  tokens : Bool := false
  keepUnknown : Bool := false
  verbose : Bool := false
  quiet : Bool := false
  inputs : List Text := []
deriving DecidableEq, Repr

namespace Options

/-- The words for a truth value after a flag. -/
def truth? (t : Text) : Option Bool :=
  if ["1", "t", "T", "TRUE", "true", "True"].any (ascii · == t) then some true
  else if ["0", "f", "F", "FALSE", "false", "False"].any (ascii · == t) then some false
  else none

/-- An item of a list flag: trimmed, with the bytes replaced that are no characters. -/
def item (t : Text) : Text :=
  (Utf8.characters t.trim).flatten

def set (o : Options) (value : Text) : Setting → Options
  | .define => { o with defines := o.defines ++ [item value] }
  | .undef => { o with undefs := o.undefs ++ [item value] }
  | .config => { o with config := value }
  | .output => { o with output := value }

def turn (o : Options) (on : Bool) : Switch → Options
  | .tokens => { o with tokens := on }
  | .keepUnknown => { o with keepUnknown := on }
  | .verbose => { o with verbose := on }
  | .quiet => { o with quiet := on }

/-- A name and the value given with it, if there is one. The first byte belongs to the name. -/
def splitValue : Text → Text × Option Text
  | [] => ([], none)
  | b :: t =>
    match Text.splitFirst '='.toUInt8 t with
    | some (name, value) => (b :: name, some value)
    | none => (b :: t, none)

/-- What an argument is taken for. -/
inductive Argument where
  | input
  | endOfFlags
  | flag (body : Text)
deriving DecidableEq, Repr

def Argument.ofText : Text → Argument
  | [] | [_] => .input
  | a :: b :: t =>
    if a ≠ '-'.toUInt8 then .input
    else if b ≠ '-'.toUInt8 then .flag (b :: t)
    else if t = [] then .endOfFlags
    else .flag t

/-- Whether the text after the dashes of a flag begins as a name does. -/
def hasName (body : Text) : Bool :=
  body.head? != some '-'.toUInt8 && body.head? != some '='.toUInt8

/-- Reads arguments after the names `used`. -/
def parseFrom (o : Options) (used : List Text) :
    List Text → Except UsageFault (Options × List Text)
  | [] => .ok (o, used)
  | arg :: args =>
    match Argument.ofText arg with
    | .input => .ok ({ o with inputs := arg :: args }, used)
    | .endOfFlags => .ok ({ o with inputs := args }, used)
    | .flag body =>
      if !hasName body then .error (.badFlag arg)
      else
        let (name, value) := splitValue body
        match Flag.ofName? name, value with
        | none, _ => .error (.unknownFlag name)
        | some (.switch s), none => parseFrom (o.turn true s) (name :: used) args
        | some (.switch s), some v =>
          match truth? v with
          | some on => parseFrom (o.turn on s) (name :: used) args
          | none => .error (.badTruth v name)
        | some (.setting s), some v => parseFrom (o.set v s) (name :: used) args
        | some (.setting s), none =>
          match args with
          | [] => .error (.missingValue name)
          | v :: args => parseFrom (o.set v s) (name :: used) args

/-- A flag that was used under both its names. -/
def twoForms? (used : List Text) : Option UsageFault :=
  Flag.all.findSome? fun f =>
    match f.names.filter used.contains with
    | first :: second :: _ => some (.twoForms second first)
    | _ => none

/-- Reads the arguments of the program. -/
def parse (args : List Text) : Except UsageFault Options := do
  let (o, used) ← parseFrom {} [] args
  match twoForms? used with
  | some f => .error f
  | none => .ok o

end Options
end CommandLine
end CPreprocessor

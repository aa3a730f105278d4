import CPreprocessor.Fault
import CPreprocessor.Ini

/-!
Everything that can make a run of the program fail, and what was going on when it did.
-/

namespace CPreprocessor

/-- Why a path does not lead to a file. -/
inductive PathFault where
  | missing
  | directory
  | notDirectory
  | tooLong
  | invalid
deriving DecidableEq, Repr

def PathFault.message : PathFault → Text
  | missing => ascii "no such file or directory"
  | directory => ascii "is a directory"
  | notDirectory => ascii "not a directory"
  | tooLong => ascii "file name too long"
  | invalid => ascii "invalid argument"

/-- What the operating system reports, and input that would have to be typed. -/
inductive SystemFault where
  | terminal
  | opening (path : Text) (f : PathFault)
  | reading (path : Text) (f : PathFault)
  | other (message : Text)
deriving DecidableEq, Repr

def SystemFault.message : SystemFault → Text
  | terminal =>
    ascii "refusing to read source from a terminal; pass a file name or pipe the input"
  | opening path f => ascii "open " ++ path ++ ascii ": " ++ f.message
  | reading path f => ascii "read " ++ path ++ ascii ": " ++ f.message
  | other message => message

/-- Why arguments are no command line. -/
inductive UsageFault where
  | badFlag (arg : Text)
  | unknownFlag (name : Text)
  | missingValue (name : Text)
  | badTruth (value name : Text)
  | twoForms (second first : Text)
deriving DecidableEq, Repr

def UsageFault.message : UsageFault → Text
  | badFlag arg => ascii "bad flag syntax: " ++ arg
  | unknownFlag name => ascii "flag provided but not defined: -" ++ name
  | missingValue name => ascii "flag needs an argument: -" ++ name
  | badTruth value name =>
    ascii "invalid boolean value " ++ Text.quoted value ++ ascii " for -" ++ name
      ++ ascii ": parse error"
  | twoForms second first =>
    ascii "Cannot use two forms of the same flag: " ++ second ++ ascii " " ++ first

/-- What the program is doing. -/
inductive Activity where
  | loadConfig
  | readMark
  | applyConfig (path : Text)
  | define (name : Text)
  | undef (name : Text)
  | readStdin
  | readInput (name : Text)
  | createOutput
  | writeOutput
  | closeOutput
deriving DecidableEq, Repr

def Activity.text : Activity → Text
  | loadConfig => ascii "load config"
  | readMark => ascii "BOM"
  | applyConfig path => ascii "config " ++ path
  | define name => ascii "define " ++ name
  | undef name => ascii "undef " ++ name
  | readStdin => ascii "read stdin"
  | readInput name => ascii "read " ++ name
  | createOutput => ascii "create output"
  | writeOutput => ascii "write output"
  | closeOutput => ascii "close output"

/-- A fault and the activities it interrupted. -/
inductive Failure where
  | source (e : Error)
  | settings (f : Ini.Fault)
  | usage (f : UsageFault)
  | system (f : SystemFault)
  | during (a : Activity) (f : Failure)
deriving DecidableEq, Repr

namespace Failure

/-- The activities from the outermost inwards, then the fault. -/
def message : Failure → Text
  | source e => e.text
  | settings f => f.message
  | usage f => f.message
  | system f => f.message
  | during a f => a.text ++ ascii ": " ++ f.message

/-- The error in source text that is at the bottom of a failure. -/
def error? : Failure → Option Error
  | source e => some e
  | during _ f => f.error?
  | settings _ | usage _ | system _ => none

end Failure
end CPreprocessor

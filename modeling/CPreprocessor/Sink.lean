import CPreprocessor.Failure
import CPreprocessor.Preprocessor

/-!
Where output goes. A sink takes texts until it is closed, and may refuse to.
-/

namespace CPreprocessor

/-- What a sink has taken, whether it is closed, and why it refuses writes or the close. -/
structure Sink where
  taken : Text := []
  closed : Bool := false
  writeFault : Option SystemFault := none
  closeFault : Option SystemFault := none
deriving DecidableEq, Repr

namespace Sink

def write (t : Text) (s : Sink) : Option SystemFault × Sink :=
  match s.writeFault with
  | some f => (some f, s)
  | none => (none, { s with taken := s.taken ++ t })

def close (s : Sink) : Option SystemFault × Sink :=
  (s.closeFault, { s with closed := true })

/-- Writes texts one after another, up to the first refusal. Empty ones are written too. -/
def writeAll (s : Sink) : List Text → Option Failure × Sink
  | [] => (none, s)
  | t :: ts =>
    match s.write t with
    | (some f, s) => (some (.during .writeOutput (.system f)), s)
    | (none, s) => writeAll s ts

/-- Writes texts and closes the sink in any case. The first fault counts. -/
def writeAllAndClose (ts : List Text) (s : Sink) : Option Failure × Sink :=
  match s.writeAll ts with
  | (some f, s) => (some f, s.close.2)
  | (none, s) =>
    let (fault, s) := s.close
    (fault.map fun f => .during .closeOutput (.system f), s)

/-- The number of bytes that are held back before any are written. -/
def bufferSize : Nat :=
  4096

/-- Prints an output in the sink through a buffer. A sink that refuses is noticed when the
buffer overflows or, if nothing else went wrong, at the end; it is not noticed if there is
nothing to write. -/
def print (out : Output) (s : Sink) : Option Failure × Sink :=
  let text := Printer.render out.tokens
  let fault := out.error.map Failure.source
  if text = [] then (fault, s)
  else match s.write text with
    | (none, s) => (fault, s)
    | (some f, s) =>
      if bufferSize < text.length then (some (.system f), s)
      else (fault.or (some (.system f)), s)

end Sink

namespace Preprocessor

/-- Preprocesses what an input holds, if it can be read, and prints it in a sink. -/
def deliver (name : Text) (input : Except SystemFault Text) (s : Sink) (p : Preprocessor) :
    Option Failure × Sink × Preprocessor :=
  match input with
  | .error f => (some (.system f), s, p)
  | .ok src =>
    let (out, _, p) := p.run name src
    let (fault, s) := s.print out
    (fault, s, p)

end Preprocessor
end CPreprocessor

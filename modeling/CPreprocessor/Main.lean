import CPreprocessor.CommandLine

/-!
The program on a real system: it reads what the arguments name, runs, and writes what the
run leaves behind.
-/

namespace CPreprocessor
namespace Main

def bytes (t : Text) : ByteArray :=
  ⟨t.toArray⟩

def string (t : Text) : String :=
  (String.fromUTF8? (bytes t)).getD ""

def fault (path : Text) : IO.Error → SystemFault
  | .noFileOrDirectory .. => .opening path .missing
  | e => .other e.toString.toUTF8.toList

/-- Performs an action on a file, with the reason if it fails. -/
def attempt {α : Type} (path : Text) (action : IO α) : IO (Except SystemFault α) := do
  try
    return .ok (← action)
  catch e =>
    return .error (fault path e)

def readFile (path : Text) : IO (Except SystemFault Text) :=
  attempt path do
    return (← IO.FS.readBinFile (string path)).toList

/-- Standard input, which must not be a terminal. -/
def readStdin : IO (Except SystemFault Text) := do
  let stdin ← IO.getStdin
  if ← stdin.isTty then return .error .terminal
  attempt CommandLine.standardInput do
    return (← stdin.readBinToEnd).toList

/-- The files that the options name, and standard input if the run gets to it. -/
def environment (o : CommandLine.Options) : IO CommandLine.Environment := do
  let mut files : List (Text × Except SystemFault Text) := []
  for path in o.config :: o.inputNames do
    unless path = [] ∨ path = CommandLine.standardInput do
      files := (path, ← readFile path) :: files
  let file (path : Text) : Except SystemFault Text :=
    (files.lookup path).getD (.error (.opening path .missing))
  let env : CommandLine.Environment := { stdin := .ok [], file }
  if (o.prepare env).isOk && o.inputNames.contains CommandLine.standardInput then
    return { env with stdin := ← readStdin }
  else return env

/-- Writes what a run leaves behind, and returns why the program fails if it does. -/
def conclude (out : CommandLine.Outcome) : IO (Option Failure) := do
  (← IO.getStderr).write (bytes out.log)
  let stdout ← IO.getStdout
  stdout.write (bytes out.stdout.taken)
  stdout.flush
  if let some (path, content) := out.created then
    if let .error f ← attempt path (IO.FS.writeBinFile (string path) (bytes content)) then
      return some (.during .createOutput (.system f))
  return out.failure

def run (args : List Text) : IO (Option Failure) := do
  match CommandLine.Options.parse args with
  | .error f => return some (.usage f)
  | .ok o => conclude (CommandLine.run args (← environment o))

/-- Runs the program and tells by the exit code whether it failed. -/
def report (args : List String) : IO UInt32 := do
  match ← run (args.map fun a => a.toUTF8.toList) with
  | none => return 0
  | some f =>
    (← IO.getStderr).write (bytes (ascii "cpp: " ++ f.message ++ [Byte.lineFeed]))
    return 1

end Main
end CPreprocessor

/-- Preprocesses C source files. -/
def main (args : List String) : IO UInt32 :=
  CPreprocessor.Main.report args

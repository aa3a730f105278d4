import CPreprocessor.CommandLine.Log
import CPreprocessor.CommandLine.Options
import CPreprocessor.CommandLine.Record
import CPreprocessor.CommandLine.Size
import CPreprocessor.Config
import CPreprocessor.Sink

/-!
The program: it sets up a preprocessor as the arguments say, preprocesses every input on
its own from that start, and writes all outputs, or none of them if an input fails.
-/

namespace CPreprocessor
namespace CommandLine

/-- What the program finds around it: its standard input and output, the files it can read,
and the reasons why files cannot be created. -/
structure Environment where
  stdin : Except SystemFault Text
  stdout : Sink := {}
  file : Text → Except SystemFault Text
  createFault? : Text → Option SystemFault := fun _ => none

/-- What the program leaves behind: the log, its standard output, the file it created, and
why it failed. -/
structure Outcome where
  stdout : Sink
  log : Text := []
  created : Option (Text × Text) := none
  failure : Option Failure := none
deriving DecidableEq, Repr

/-- The name of standard input. -/
def standardInput : Text :=
  ascii "-"

namespace Options

/-- The least level of the log entries that are written. -/
def threshold (o : Options) : Log.Level :=
  if o.verbose then .debug else if o.quiet then .error else .warning

/-- The inputs to preprocess: standard input if none is named. -/
def inputNames (o : Options) : List Text :=
  if o.inputs = [] then [standardInput] else o.inputs

/-- What a configuration file holds. Reading starts with its byte order mark, so a file that
opens and cannot be read fails there. -/
def readConfig (o : Options) (env : Environment) : Except Failure Text :=
  (env.file o.config).mapError fun
    | .reading path f => .during .loadConfig (.during .readMark (.system (.reading path f)))
    | f => .during .loadConfig (.system f)

/-- The preprocessor that a configuration file sets up. -/
def configure (o : Options) (env : Environment) : Except Failure Preprocessor :=
  let p : Preprocessor := { keepUnknown := o.keepUnknown }
  if o.config = [] then .ok p
  else do
    let c ← Config.load (← o.readConfig env)
    match c.apply p with
    | (some f, _) => .error (.during (.applyConfig o.config) f)
    | (none, p) => .ok p

/-- The preprocessor that every input starts from. -/
def prepare (o : Options) (env : Environment) : Except Failure Preprocessor := do
  let p ← o.configure env
  match p.predefine o.defines o.undefs with
  | (some e, _) => .error (.source e)
  | (none, p) => .ok p

/-- What standard input holds, if it is one of the inputs. -/
def readStdin (o : Options) (env : Environment) : Except Failure Text :=
  if o.inputNames.contains standardInput then
    match env.stdin with
    | .ok t => .ok t
    | .error .terminal => .error (.system .terminal)
    | .error f => .error (.during .readStdin (.system f))
  else .ok []

/-- What an input holds. -/
def readInput (env : Environment) (stdin name : Text) : Except Failure Text :=
  if name = standardInput then .ok stdin
  else (env.file name).mapError fun f => .during (.readInput name) (.system f)

/-- The entry for a directive. -/
def directiveEntry (file : Text) (e : Directive.Event) : Log.Entry :=
  ⟨.debug, ascii "#" ++ e.name, [(ascii "file", file), (ascii "pos", e.pos.text)]⟩

/-- The entry for an input that is done. -/
def sizesEntry (file src out : Text) : Log.Entry :=
  ⟨.info, ascii "read " ++ Size.text src.length ++ ascii ", wrote " ++ Size.text out.length,
    [(ascii "file", file)]⟩

/-- The output for the tokens of a file. -/
def rendering (asRecords : Bool) (file : Text) (ts : List Token) : Text :=
  if asRecords then ts.flatMap (Record.line file) else Printer.render ts

/-- Preprocesses one input: the entries of the log, and the output. -/
def convert (o : Options) (p : Preprocessor) (name src : Text) :
    List Log.Entry × Except Failure Text :=
  let (out, events, _) := p.run name src
  let log := events.map (directiveEntry name)
  match out.error with
  | some e => (log, .error (.source e))
  | none =>
    let text := rendering o.tokens name out.tokens
    (log ++ [sizesEntry name src text], .ok text)

/-- Preprocesses inputs one by one, up to the first failure. -/
def convertAll (o : Options) (env : Environment) (p : Preprocessor) (stdin : Text) :
    List Text → List Log.Entry × Except Failure (List Text)
  | [] => ([], .ok [])
  | name :: names =>
    match readInput env stdin name with
    | .error f => ([], .error f)
    | .ok src =>
      match o.convert p name src with
      | (log, .error f) => (log, .error f)
      | (log, .ok text) =>
        let (rest, texts) := convertAll o env p stdin names
        (log ++ rest, texts.map (text :: ·))

/-- Writes the outputs where they belong. -/
def write (o : Options) (env : Environment) (log : Text) (texts : List Text) : Outcome :=
  if o.output = [] then
    let (failure, stdout) := env.stdout.writeAll texts
    { stdout, log, failure }
  else match env.createFault? o.output with
    | some f => { stdout := env.stdout, log, failure := some (.during .createOutput (.system f)) }
    | none =>
      let (failure, sink) := Sink.writeAllAndClose texts {}
      { stdout := env.stdout, log, created := some (o.output, sink.taken), failure }

end Options

/-- Runs the program. -/
def run (args : List Text) (env : Environment) : Outcome :=
  let fail (f : Failure) : Outcome := { stdout := env.stdout, failure := some f }
  match Options.parse args with
  | .error f => fail (.usage f)
  | .ok o =>
    match o.prepare env with
    | .error f => fail f
    | .ok p =>
      match o.readStdin env with
      | .error f => fail f
      | .ok stdin =>
        let (entries, texts) := o.convertAll env p stdin o.inputNames
        let log := Log.render o.threshold entries
        match texts with
        | .error f => { stdout := env.stdout, log, failure := some f }
        | .ok texts => o.write env log texts

end CommandLine
end CPreprocessor

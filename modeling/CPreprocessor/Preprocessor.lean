import CPreprocessor.Directive.ActiveText
import CPreprocessor.Printer

/-!
The preprocessor: the text of a source that its directives keep active, with its macros
expanded. One macro table serves directives and expansion, so a definition takes effect at
the token after it and outlives the source it came from.
-/

namespace CPreprocessor

/-- A source with the name of the file it stands for, which its errors carry. -/
structure Named (σ : Type) where
  name : Text
  source : σ

namespace Named

variable {σ : Type} [Source σ]

def pull (n : Named σ) : Pull (Named σ) :=
  match Source.pull n.source with
  | .token t s => .token t { n with source := s }
  | .stop e s => .stop (e.inFile n.name) { n with source := s }

instance : Source (Named σ) where
  pull := pull
  wf := by
    refine Subrelation.wf ?_ (InvImage.wf Named.source (Source.wf (σ := σ)))
    rintro n' n ⟨t, h⟩
    unfold pull at h
    cases hp : Source.pull n.source with
    | stop e s => simp [hp] at h
    | token u s =>
      simp only [hp, Pull.token.injEq] at h
      obtain ⟨rfl, rfl⟩ := h
      exact ⟨u, hp⟩

end Named

/-- The macros a source starts with, and whether directives of unknown name are kept. -/
structure Preprocessor where
  table : Table := {}
  keepUnknown : Bool := false
deriving DecidableEq, Repr

/-- A source text on its way through the preprocessor. -/
abbrev Run := Buffered (Named (ExpandedText (ActiveText Lexer)))

namespace Run

/-- The active text that the run expands. -/
def activeText (r : Run) : ActiveText Lexer :=
  r.source.source.input.source

def table (r : Run) : Table :=
  r.source.source.table

def setTable (T : Table) (r : Run) : Run :=
  r.mapSource fun n => { n with source := n.source.setTable T }

/-- The directives executed so far, in order. -/
def events (r : Run) : List Directive.Event :=
  r.activeText.state.events.reverse

end Run

namespace Preprocessor

/-- The macro head and the value of a definition `NAME=VALUE`; a name alone has the value
one. -/
def splitDefinition (t : Text) : Text × Text :=
  (t.splitFirst '='.toUInt8).getD (t, ascii "1")

/-- The file name that errors in predefined macros carry. -/
def predefinedFile : Text :=
  ascii "<command line>"

/-- Executes directives for their effect on the macros. What happened before an error
stays. -/
def execute (src : Text) (p : Preprocessor) : Option Error × Preprocessor :=
  let x := ActiveText.ofSource (Lexer.ofText src) p.table false
  let (out, r) := TokenStream.drain (Buffered.ofSource x)
  (out.error.map (Error.inFile predefinedFile), { p with table := r.source.state.table })

/-- Predefines a macro given as `NAME`, `NAME=VALUE` or `NAME(params)=VALUE`. -/
def define (definition : Text) (p : Preprocessor) : Option Error × Preprocessor :=
  let (name, value) := splitDefinition definition
  p.execute (ascii "#define " ++ name ++ ascii " " ++ value ++ [Byte.lineFeed])

/-- Removes a macro. -/
def undef (name : Text) (p : Preprocessor) : Option Error × Preprocessor :=
  p.execute (ascii "#undef " ++ name ++ [Byte.lineFeed])

/-- Performs an operation for each text, up to the first error. -/
def each (op : Text → Preprocessor → Option Error × Preprocessor) (p : Preprocessor) :
    List Text → Option Error × Preprocessor
  | [] => (none, p)
  | t :: ts =>
    match op t p with
    | (some e, p) => (some e, p)
    | (none, p) => each op p ts

/-- Performs all definitions and then all removals, up to the first error. -/
def predefine (defines undefs : List Text) (p : Preprocessor) : Option Error × Preprocessor :=
  match p.each define defines with
  | (some e, p) => (some e, p)
  | (none, p) => p.each undef undefs

/-- Starts on a source text. Nothing is read yet. -/
def start (name src : Text) (p : Preprocessor) : Run :=
  .ofSource ⟨name, .ofSource (.ofSource (Lexer.ofText src) p.table p.keepUnknown)⟩

/-- Lets an operation advance a run with the preprocessor's macros, and takes over the macros
it leaves. -/
def advance {α : Type} (op : Run → α × Run) (r : Run) (p : Preprocessor) :
    α × Run × Preprocessor :=
  let (a, r) := op (r.setTable p.table)
  (a, r, { p with table := r.table })

/-- Preprocesses a source: its tokens, the directives executed, and the macros left. -/
def run (name src : Text) (p : Preprocessor) :
    Output × List Directive.Event × Preprocessor :=
  let (out, r, p) := p.advance TokenStream.drain (p.start name src)
  (out, r.events, p)

end Preprocessor

/-- Preprocesses a source with no macros predefined. -/
def preprocess (name src : Text) : Output :=
  (({} : Preprocessor).run name src).1

/-- The text a source becomes, and the error that ended it early. -/
def preprocessText (src : Text) : Text × Option Error :=
  let out := preprocess [] src
  (Printer.render out.tokens, out.error)

end CPreprocessor

import CPreprocessor.Fault

/-!
Token sources. A source produces one token at a time and changes its state with each; it
ends after finitely many tokens, at the end of input or with an error. What a source has
left is therefore a finite list with an end.
-/

namespace CPreprocessor

/-- How a token sequence ends. -/
inductive End where
  | eof
  | fault (e : Error)
deriving DecidableEq, Repr

namespace End

def error? : End → Option Error
  | eof => none
  | fault e => some e

/-- Names the file in which a faulty end occurred. -/
def inFile (name : Text) : End → End
  | eof => eof
  | fault e => fault (e.inFile name)

end End

/-- The outcome of asking for a token: a token or the end, with the state after it. -/
inductive Pull (σ : Type) where
  | token (t : Token) (s : σ)
  | stop (e : End) (s : σ)

namespace Pull

/-- Applies a function to the state. -/
def map {σ τ : Type} (f : σ → τ) : Pull σ → Pull τ
  | token t s => token t (f s)
  | stop e s => stop e (f s)

/-- The state after asking. -/
def state {σ : Type} : Pull σ → σ
  | token _ s | stop _ s => s

end Pull

/-- A producer of tokens that cannot produce forever. -/
class Source (σ : Type) where
  pull : σ → Pull σ
  wf : WellFounded fun s' s => ∃ t, pull s = .token t s'

namespace Source

variable {σ : Type} [Source σ]

/-- The tokens still to be produced, and how they end. -/
def content (s : σ) : List Token × End :=
  match _h : pull s with
  | .token t s' => let (ts, e) := content s'; (t :: ts, e)
  | .stop e _ => ([], e)
termination_by Source.wf.wrap s
decreasing_by exact ⟨t, _h⟩

theorem content_of_token {s s' : σ} {t : Token} (h : pull s = .token t s') :
    content s = (t :: (content s').1, (content s').2) := by
  rw [content]
  split <;> simp_all

theorem content_of_stop {s s' : σ} {e : End} (h : pull s = .stop e s') :
    content s = ([], e) := by
  rw [content]
  split <;> simp_all

end Source

/-- A source whose every token makes a natural number smaller ends. -/
theorem wellFounded_pull {σ : Type} (pull : σ → Pull σ) (size : σ → Nat)
    (h : ∀ s t s', pull s = .token t s' → size s' < size s) :
    WellFounded fun s' s => ∃ t, pull s = .token t s' :=
  Subrelation.wf (fun ⟨t, ht⟩ => h _ t _ ht) (measure size).wf

end CPreprocessor

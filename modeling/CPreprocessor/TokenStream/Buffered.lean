import CPreprocessor.TokenStream

/-!
A buffer turns any source into a stream. It holds the tokens given back, and once the
source has ended it remembers how, so that every later read reports the same end.
-/

namespace CPreprocessor

/-- A source with the tokens given back to it and the end it has reported. -/
structure Buffered (σ : Type) where
  source : σ
  returned : List Token := []
  ended : Option End := none

namespace Buffered

variable {σ : Type} [Source σ]

def next (r : Buffered σ) : Pull (Buffered σ) :=
  match r.returned, r.ended with
  | t :: ts, _ => .token t { r with returned := ts }
  | [], some e => .stop e r
  | [], none =>
    match Source.pull r.source with
    | .token t s => .token t { r with source := s }
    | .stop e s => .stop e { r with source := s, ended := some e }

def unread (ts : List Token) (r : Buffered σ) : Buffered σ :=
  { r with returned := ts ++ r.returned }

/-- What the source has still to say. -/
def beyond (r : Buffered σ) : List Token × End :=
  match r.ended with
  | some e => ([], e)
  | none => Source.content r.source

/-- The tokens given back, then those the source has left. -/
def content (r : Buffered σ) : List Token × End :=
  (r.returned ++ r.beyond.1, r.beyond.2)

theorem content_of_token {r r' : Buffered σ} {t : Token} (h : r.next = .token t r') :
    r.content = (t :: r'.content.1, r'.content.2) := by
  obtain ⟨s, returned, ended⟩ := r
  cases returned with
  | cons u us => simp_all [next, content, beyond]; grind
  | nil =>
    cases ended with
    | some e => simp [next] at h
    | none =>
      simp only [next] at h
      cases hp : Source.pull s with
      | stop e s' => simp [hp] at h
      | token u s' =>
        simp only [hp, Pull.token.injEq] at h
        obtain ⟨rfl, rfl⟩ := h
        simp [content, beyond, Source.content_of_token hp]

theorem content_of_stop {r r' : Buffered σ} {e : End} (h : r.next = .stop e r') :
    r.content = ([], e) ∧ r'.content = ([], e) := by
  obtain ⟨s, returned, ended⟩ := r
  cases returned with
  | cons u us => simp [next] at h
  | nil =>
    cases ended with
    | some f =>
      simp only [next, Pull.stop.injEq] at h
      obtain ⟨rfl, rfl⟩ := h
      simp [content, beyond]
    | none =>
      simp only [next] at h
      cases hp : Source.pull s with
      | token u s' => simp [hp] at h
      | stop f s' =>
        simp only [hp, Pull.stop.injEq] at h
        obtain ⟨rfl, rfl⟩ := h
        simp [content, beyond, Source.content_of_stop hp]

instance : TokenStream (Buffered σ) where
  next := next
  unread := unread
  content := content
  content_of_token := content_of_token
  content_of_stop := content_of_stop
  content_unread ts r := by simp [content, unread, beyond]

/-- A source of which nothing has been read yet. -/
def ofSource (s : σ) : Buffered σ :=
  { source := s }

/-- Replaces the state of the source. -/
def mapSource {τ : Type} (f : σ → τ) (r : Buffered σ) : Buffered τ :=
  { r with source := f r.source }

end Buffered
end CPreprocessor

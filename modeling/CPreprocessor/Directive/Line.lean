import CPreprocessor.TokenStream

/-!
The line of a directive: its tokens through the white space that ends it, and how the
input ended if there is none.
-/

namespace CPreprocessor

/-- A token source for directives. It can be told to tolerate malformed literals, which
makes no difference to how much it has left. -/
class Feed (σ : Type) extends Source σ where
  size : σ → Nat
  tolerate : Bool → σ → σ
  size_lt_of_token : ∀ {s s' : σ} {t : Token}, pull s = .token t s' → size s' < size s
  size_le_of_stop : ∀ {s s' : σ} {e : End}, pull s = .stop e s' → size s' ≤ size s
  size_tolerate : ∀ (b : Bool) (s : σ), size (tolerate b s) = size s

/-- A token list has no literals left to tolerate. -/
instance : Feed (List Token) where
  pull := TokenList.next
  wf := wellFounded_pull TokenList.next List.length (by
    intro s t s' h
    cases s <;> simp_all [TokenList.next])
  size := List.length
  tolerate _ s := s
  size_lt_of_token {s _ _} h := by cases s <;> simp_all [TokenList.next]
  size_le_of_stop {s _ _} h := by cases s <;> simp_all [TokenList.next]
  size_tolerate _ _ := rfl

/-- The tokens of a line, and the end after them. A line that was read through its line end
does not get to its `ending`. -/
structure Line where
  tokens : List Token
  ending : End
deriving DecidableEq, Repr

namespace Line

def next (l : Line) : Pull Line :=
  match l.tokens with
  | [] => .stop l.ending l
  | t :: ts => .token t { l with tokens := ts }

instance : TokenStream Line where
  next := next
  unread ts l := { l with tokens := ts ++ l.tokens }
  content l := (l.tokens, l.ending)
  content_of_token {l _ _} h := by
    obtain ⟨ts, e⟩ := l
    cases ts <;> simp_all [next]
    obtain ⟨rfl, rfl⟩ := h
    simp
  content_of_stop {l _ _} h := by
    obtain ⟨ts, e⟩ := l
    cases ts <;> simp_all [next]
    obtain ⟨rfl, rfl⟩ := h
    simp
  content_unread _ _ := rfl

/-- Reads through the next line end. -/
def read {σ : Type} [Feed σ] (s : σ) : Line × σ :=
  match _h : Source.pull s with
  | .stop e s => (⟨[], e⟩, s)
  | .token t s =>
    if t.isLineEnd then (⟨[t], .eof⟩, s)
    else
      let (l, s) := read s
      ({ l with tokens := t :: l.tokens }, s)
termination_by Feed.size s
decreasing_by exact Feed.size_lt_of_token _h

theorem size_read_le {σ : Type} [Feed σ] (s : σ) :
    Feed.size (read s).2 ≤ Feed.size s := by
  fun_induction read s with
  | case1 s e s' h => exact Feed.size_le_of_stop h
  | case2 s t s' h _ => exact Nat.le_of_lt (Feed.size_lt_of_token h)
  | case3 s t s' h _ l s'' hr ih =>
    have := Feed.size_lt_of_token h
    simp only [hr] at ih
    simp only
    omega

/-- The tokens in front of the line end, and the white space that is the line end, if the
input goes on. -/
def split (l : Line) : Except Error (List Token × Option Token) :=
  let body := l.tokens.takeWhile fun t => !t.isLineEnd
  match l.tokens.find? Token.isLineEnd, l.ending with
  | some t, _ => .ok (body, some t)
  | none, .eof => .ok (body, none)
  | none, .fault e => .error e

/-- The line end alone. -/
def finish (l : Line) : Except Error (Option Token) :=
  l.split.map Prod.snd

end Line
end CPreprocessor

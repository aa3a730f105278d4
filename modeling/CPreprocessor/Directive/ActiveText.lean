import CPreprocessor.Directive
import CPreprocessor.Lexer
import CPreprocessor.Macro.ExpandedText

/-!
The active text of a source: its directives are executed and the text that they keep is
handed out. A directive is a line whose first token that is not white space is `#` or `%:`.
While text is skipped the source tolerates malformed literals.
-/

namespace CPreprocessor

instance : Feed Lexer where
  size l := l.rest.length
  tolerate tolerant l := { l with tolerant }
  size_lt_of_token := Lexer.rest_lt_of_pull
  size_le_of_stop {l l' e} h := by
    change l.pull = .stop e l' at h
    unfold Lexer.pull at h
    split at h
    · cases h; exact Nat.le_refl _
    · split at h
      · contradiction
      · cases h; exact Nat.le_refl _
  size_tolerate _ _ := rfl

/-- A token source, the state of its directives, whether the next token may open a directive,
and tokens to hand out before more is read. -/
structure ActiveText (σ : Type) where
  input : σ
  state : Directive.State := {}
  keepUnknown : Bool := false
  lineStart : Bool := true
  pending : List Token := []

namespace ActiveText

variable {σ : Type} [Feed σ]

def ofSource (s : σ) (table : Table) (keepUnknown : Bool) : ActiveText σ :=
  { input := s, state := { table }, keepUnknown }

/-- The number of open groups. -/
def depth (x : ActiveText σ) : Nat :=
  x.state.groups.length

/-- Whether a directive may start after `t` if `before` tells whether one may start at it. -/
def startsLine (before : Bool) (t : Token) : Bool :=
  if t.isLineEnd then true else if t.isSpace then before else false

/-- The next token that is kept. -/
def pull (x : ActiveText σ) : Pull (ActiveText σ) :=
  match x.pending with
  | t :: ts => .token t { x with pending := ts }
  | [] =>
    match _h : Source.pull x.input with
    | .stop .eof s => .stop x.state.groups.atEnd { x with input := s }
    | .stop (.fault e) s => .stop (.fault e) { x with input := s }
    | .token t s =>
      if x.lineStart && t.isHash then
        match _hr : Line.read s with
        | (line, s') =>
          match Directive.execute x.keepUnknown t line x.state with
          | (state, .error e) =>
            .stop (.fault e) { x with input := s', state, lineStart := false }
          | (state, .ok out) =>
            match out with
            | t :: ts =>
              .token t { x with
                input := Feed.tolerate (!state.active) s', state, lineStart := true,
                pending := ts }
            | [] =>
              pull { x with
                input := Feed.tolerate (!state.active) s', state, lineStart := true }
      else if x.state.active then
        .token t { x with input := s, lineStart := startsLine x.lineStart t }
      else pull { x with input := s, lineStart := startsLine x.lineStart t }
termination_by Feed.size x.input
decreasing_by
  · rw [Feed.size_tolerate]
    have := Feed.size_lt_of_token _h
    have := Line.size_read_le s
    simp only [_hr] at this
    omega
  · exact Feed.size_lt_of_token _h

/-- The tokens of the source still to come, and the tokens to hand out without them. -/
def measure (x : ActiveText σ) : Nat × Nat :=
  (Feed.size x.input, x.pending.length)

/-- Every token handed out makes the text smaller. -/
theorem measure_lt_of_pull {x x' : ActiveText σ} {t : Token} (h : x.pull = .token t x') :
    Prod.Lex (· < ·) (· < ·) x'.measure x.measure := by
  fun_induction pull x with
  | case1 x t' ts hp =>
    cases h
    refine Prod.Lex.right _ ?_
    simp [hp]
  | case2 | case3 | case4 => cases h
  | case5 x hp t' s hs _ line s' hr state t'' ts hx =>
    cases h
    refine Prod.Lex.left _ _ ?_
    rw [Feed.size_tolerate]
    have := Feed.size_lt_of_token hs
    have := Line.size_read_le s
    simp only [hr] at this
    omega
  | case6 x hp t' s hs _ line s' hr state hx ih =>
    have hlt := ih h
    have : Feed.size s' < Feed.size x.input := by
      have := Feed.size_lt_of_token hs
      have := Line.size_read_le s
      simp only [hr] at this
      omega
    generalize x'.measure = p at *
    cases hlt with
    | left _ _ hlt =>
      rw [Feed.size_tolerate] at hlt
      exact Prod.Lex.left _ _ (Nat.lt_trans hlt this)
    | right _ _ =>
      refine Prod.Lex.left _ _ ?_
      rwa [Feed.size_tolerate]
  | case7 x hp t' s hs _ _ =>
    cases h
    exact Prod.Lex.left _ _ (Feed.size_lt_of_token hs)
  | case8 x hp t' s hs _ _ ih =>
    have hlt := ih h
    have := Feed.size_lt_of_token hs
    generalize x'.measure = p at *
    cases hlt with
    | left _ _ hlt => exact Prod.Lex.left _ _ (Nat.lt_trans hlt this)
    | right _ _ => exact Prod.Lex.left _ _ this

instance : Tabled (ActiveText σ) where
  pull := pull
  wf := by
    refine Subrelation.wf ?_ (InvImage.wf measure (Prod.lex Nat.lt_wfRel Nat.lt_wfRel).wf)
    rintro x' x ⟨t, h⟩
    exact measure_lt_of_pull h
  table x := x.state.table
  setTable table x := { x with state := { x.state with table } }

end ActiveText
end CPreprocessor

import CPreprocessor.Macro.Expansion
import CPreprocessor.TokenStream.Buffered

/-!
Macro expansion on demand. The expanded text of a source that carries a macro table is
handed out one token at a time; a replacement that is not used up waits on a stack. The
table is consulted at every step, so a change between two tokens takes effect at once, even
inside a replacement.
-/

namespace CPreprocessor

/-- A source that carries the macro table in force. -/
class Tabled (σ : Type) extends Source σ where
  table : σ → Table
  setTable : Table → σ → σ

/-- A source beside a macro table that it does not change. -/
structure WithTable (σ : Type) where
  table : Table
  source : σ

namespace WithTable

variable {σ : Type} [Source σ]

def pull (w : WithTable σ) : Pull (WithTable σ) :=
  (Source.pull w.source).map fun s => { w with source := s }

instance : Tabled (WithTable σ) where
  pull := pull
  wf := by
    refine Subrelation.wf ?_ (InvImage.wf WithTable.source (Source.wf (σ := σ)))
    rintro w' w ⟨t, h⟩
    unfold pull at h
    cases hp : Source.pull w.source with
    | stop e s => simp [hp, Pull.map] at h
    | token u s =>
      simp only [hp, Pull.map, Pull.token.injEq] at h
      obtain ⟨rfl, rfl⟩ := h
      exact ⟨u, hp⟩
  table := WithTable.table
  setTable T w := { w with table := T }

end WithTable

/-- A replacement being handed out: the names it was made by and the tokens left of it. -/
structure Frame where
  context : Context
  rest : List Token
deriving DecidableEq, Repr

/-- An input and the replacements waiting to be handed out before more of it is read, the
innermost first. -/
structure ExpandedText (σ : Type) where
  input : Buffered σ
  frames : List Frame := []

namespace Expansion

/-- The steps it takes to hand out a replacement. -/
def work (table : Table) (depth : Nat) (ctx : Context) (ts : List Token) : Nat :=
  match _h : step (fun _ => table) false depth ctx ts with
  | .stop _ _ => 1
  | .emit _ _ rest => work table depth ctx rest + 1
  | .call m args rest =>
    match replacement table false depth m args with
    | .error _ => 1
    | .ok body =>
      work table (depth + 1) (ctx.extend m.name) body + work table depth ctx rest + 2
termination_by (depthLimit - depth, ts.length)
decreasing_by
  · exact Prod.Lex.right _ (size_of_emit _h)
  · have := (size_of_call _h).2; exact Prod.Lex.left _ _ (by omega)
  · exact Prod.Lex.right _ (size_of_call _h).1

/-- The steps it takes to hand out all replacements on a stack. -/
def totalWork (table : Table) : List Frame → Nat
  | [] => 0
  | f :: fs => work table (fs.length + 1) f.context f.rest + totalWork table fs + 1

theorem work_of_emit {table : Table} {depth : Nat} {ctx : Context} {ts rest op : List Token}
    {t : Token} (h : step (fun _ => table) false depth ctx ts = .emit t op rest) :
    work table depth ctx ts = work table depth ctx rest + 1 := by
  rw [work]
  split <;> simp_all

theorem work_of_call {table : Table} {depth : Nat} {ctx : Context}
    {ts rest body : List Token} {m : Macro} {args : List (List Token)}
    (h : step (fun _ => table) false depth ctx ts = .call m args rest)
    (hb : replacement table false depth m args = .ok body) :
    work table depth ctx ts =
      work table (depth + 1) (ctx.extend m.name) body + work table depth ctx rest + 2 := by
  rw [work]
  split
  · simp_all
  · simp_all
  · rename_i m' args' rest' h'
    rw [h] at h'
    cases h'
    simp [hb]

end Expansion

namespace ExpandedText

open Expansion

variable {σ : Type} [Tabled σ]

def ofSource (s : σ) : ExpandedText σ :=
  { input := .ofSource s }

/-- The macros in force. -/
def table (x : ExpandedText σ) : Table :=
  Tabled.table x.input.source

def setTable (T : Table) (x : ExpandedText σ) : ExpandedText σ :=
  { x with input := x.input.mapSource (Tabled.setTable T) }

/-- The tokens of the input still to come, and the steps the stack takes without them. -/
def measure (x : ExpandedText σ) : Nat × Nat :=
  (TokenStream.size x.input, totalWork x.table x.frames)

/-- The next expanded token. Replacements are used up before more input is read. -/
def pull (x : ExpandedText σ) : Pull (ExpandedText σ) :=
  match _hx : x.frames with
  | [] =>
    match _h : step (fun r => Tabled.table r.source) false 0 [] x.input with
    | .stop e r => .stop e { x with input := r }
    | .emit t _ r => .token t { x with input := r }
    | .call m args r =>
      match replacement (Tabled.table r.source) false 0 m args with
      | .error e => .stop (.fault e) { x with input := r }
      | .ok body => pull { input := r, frames := [⟨[m.name], body⟩] }
  | f :: fs =>
    match _h : step (fun _ => x.table) false (fs.length + 1) f.context f.rest with
    | .stop .eof _ => pull { x with frames := fs }
    | .stop (.fault e) _ => .stop (.fault e) x
    | .emit t _ rest => .token t { x with frames := { f with rest } :: fs }
    | .call m args rest =>
      match _hb : replacement x.table false (fs.length + 1) m args with
      | .error e => .stop (.fault e) x
      | .ok body =>
        pull { x with
          frames := ⟨f.context.extend m.name, body⟩ :: { f with rest } :: fs }
termination_by x.measure
decreasing_by
  · exact Prod.Lex.left _ _ (size_of_call _h).1
  · refine Prod.Lex.right _ ?_
    simp only [_hx, totalWork, table]
    omega
  · refine Prod.Lex.right _ ?_
    simp only [_hx, totalWork, table, List.length_cons]
    have := work_of_call _h _hb
    simp only [table] at this
    omega

/-- Every token handed out makes the text smaller. -/
theorem measure_lt_of_pull {x x' : ExpandedText σ} {t : Token} (h : x.pull = .token t x') :
    Prod.Lex (· < ·) (· < ·) x'.measure x.measure := by
  fun_induction pull x with
  | case1 | case3 | case6 | case8 => cases h
  | case2 x hx t' op r hs =>
    cases h
    exact Prod.Lex.left _ _ (size_of_emit hs)
  | case4 x hx m args r hs body hb ih =>
    have := ih h
    have hl := (size_of_call hs).1
    generalize x'.measure = p at *
    cases this with
    | left _ _ hlt => exact Prod.Lex.left _ _ (Nat.lt_trans hlt hl)
    | right _ _ => exact Prod.Lex.left _ _ hl
  | case5 x f fs hx rest hs ih =>
    have := ih h
    generalize x'.measure = p at *
    cases this with
    | left _ _ hlt => exact Prod.Lex.left _ _ hlt
    | right _ hlt =>
      refine Prod.Lex.right _ (Nat.lt_trans hlt ?_)
      simp only [hx, totalWork, table]
      omega
  | case7 x f fs hx t' op rest hs =>
    cases h
    refine Prod.Lex.right _ ?_
    simp only [hx, totalWork, table]
    have := work_of_emit hs
    simp only [table] at this
    omega
  | case9 x f fs hx m args rest hs body hb ih =>
    have := ih h
    generalize x'.measure = p at *
    cases this with
    | left _ _ hlt => exact Prod.Lex.left _ _ hlt
    | right _ hlt =>
      refine Prod.Lex.right _ (Nat.lt_trans hlt ?_)
      simp only [hx, totalWork, table, List.length_cons]
      have := work_of_call hs hb
      simp only [table] at this
      omega

instance : Tabled (ExpandedText σ) where
  pull := pull
  wf := by
    refine Subrelation.wf ?_ (InvImage.wf measure (Prod.lex Nat.lt_wfRel Nat.lt_wfRel).wf)
    rintro x' x ⟨t, h⟩
    exact measure_lt_of_pull h
  table := table
  setTable := setTable

end ExpandedText
end CPreprocessor

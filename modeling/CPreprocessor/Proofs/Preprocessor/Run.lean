import CPreprocessor.Preprocessor
import CPreprocessor.Proofs.Macro.ExpandedText

/-!
Runs of the preprocessor. Preprocessing a text is the run of its expanded text; the name of the
file only gets into the error. Within a bound on the steps such a run can be computed.
-/

namespace CPreprocessor

open Source (Runs runWithin)

theorem Named.runs {σ : Type} [Source σ] {s s₁ : σ} {ts : List Token} {e : End}
    (h : Runs s ts e s₁) (name : Text) :
    Runs (⟨name, s⟩ : Named σ) ts (e.inFile name) ⟨name, s₁⟩ := by
  induction h with
  | stop hp =>
      refine .stop ?_
      change Named.pull _ = _
      rw [Named.pull, hp]
  | token hp _ ih =>
      refine .token ?_ ih
      change Named.pull _ = _
      rw [Named.pull, hp]

namespace ExpandedText

open Expansion

variable {σ : Type} [Tabled σ]

/-- The next expanded token, if it is reached in less than `n` steps. -/
def pullWithin : Nat → ExpandedText σ → Option (Pull (ExpandedText σ))
  | 0, _ => none
  | n + 1, x =>
    match x.frames with
    | [] =>
      match step (fun r => Tabled.table r.source) false 0 [] x.input with
      | .stop e r => some (.stop e { x with input := r })
      | .emit t _ r => some (.token t { x with input := r })
      | .call m args r =>
        match replacement (Tabled.table r.source) false 0 m args with
        | .error e => some (.stop (.fault e) { x with input := r })
        | .ok body => pullWithin n { input := r, frames := [⟨[m.name], body⟩] }
    | f :: fs =>
      match step (fun _ => x.table) false (fs.length + 1) f.context f.rest with
      | .stop .eof _ => pullWithin n { x with frames := fs }
      | .stop (.fault e) _ => some (.stop (.fault e) x)
      | .emit t _ rest => some (.token t { x with frames := { f with rest } :: fs })
      | .call m args rest =>
        match replacement x.table false (fs.length + 1) m args with
        | .error e => some (.stop (.fault e) x)
        | .ok body =>
          pullWithin n { x with
            frames := ⟨f.context.extend m.name, body⟩ :: { f with rest } :: fs }

theorem pull_of_pullWithin {n : Nat} {x : ExpandedText σ} {p : Pull (ExpandedText σ)}
    (h : pullWithin n x = some p) : x.pull = p := by
  induction n generalizing x with
  | zero => cases h
  | succ n ih =>
      rw [pullWithin] at h
      split at h
      · rename_i hx
        split at h
        · rename_i hs
          rw [pull_of_stop hx hs]
          exact Option.some.inj h
        · rename_i hs
          rw [pull_of_emit hx hs]
          exact Option.some.inj h
        · rename_i hs
          split at h
          · rename_i hb
            rw [pull_of_call hx hs, hb]
            exact Option.some.inj h
          · rename_i hb
            rw [pull_of_call hx hs, hb]
            exact ih h
      · rename_i hx
        split at h
        · rename_i hs
          rw [pull_of_frame_stop hx hs]
          exact ih h
        · rename_i hs
          rw [pull_of_frame_fault hx hs]
          exact Option.some.inj h
        · rename_i hs
          rw [pull_of_frame_emit hx hs]
          exact Option.some.inj h
        · rename_i hs
          split at h
          · rename_i hb
            rw [pull_of_frame_call hx hs, hb]
            exact Option.some.inj h
          · rename_i hb
            rw [pull_of_frame_call hx hs, hb]
            exact ih h

/-- The tokens of a text, how they end and the macros left, if there are less than `n` tokens and
each of them takes less than `n` steps. -/
def runWithin (n : Nat) (x : ExpandedText σ) : Option (List Token × End × Table) :=
  (Source.runWithin (pullWithin n) n x).map fun (ts, e, y) => (ts, e, y.table)

theorem runs_of_runWithin {n : Nat} {x : ExpandedText σ} {ts : List Token} {e : End} {T : Table}
    (h : x.runWithin n = some (ts, e, T)) : ∃ y, Runs x ts e y ∧ y.table = T := by
  obtain ⟨⟨us, f, y⟩, hr, heq⟩ := Option.map_eq_some_iff.1 h
  cases heq
  exact ⟨y, Source.runs_of_runWithin pull_of_pullWithin hr, rfl⟩

end ExpandedText

namespace Preprocessor

variable {p : Preprocessor} {src : Text} {ts : List Token} {e : End}

/-- The expanded text of a source, before anything is read. -/
def expandedText (src : Text) (p : Preprocessor) : ExpandedText (ActiveText Lexer) :=
  .ofSource (.ofSource (Lexer.ofText src) p.table p.keepUnknown)

theorem run_of_runs {y : ExpandedText (ActiveText Lexer)} (h : Runs (p.expandedText src) ts e y)
    (name : Text) : p.run name src =
      (⟨ts, (e.inFile name).error?⟩, y.input.source.state.events.reverse,
        { p with table := y.table }) := by
  have hrun : p.run name src =
      ((TokenStream.drain (Buffered.ofSource (⟨name, p.expandedText src⟩ : Named _))).1,
        Run.events (TokenStream.drain (Buffered.ofSource ⟨name, p.expandedText src⟩)).2,
        { p with
          table :=
            Run.table (TokenStream.drain (Buffered.ofSource ⟨name, p.expandedText src⟩)).2 }) :=
    rfl
  rw [hrun, (Named.runs h name).drain]
  rfl

theorem runs_of_run {p' : Preprocessor} {name : Text} {events : List Directive.Event}
    (h : p.run name src = (⟨ts, none⟩, events, p')) :
    ∃ y, Runs (p.expandedText src) ts .eof y ∧ p' = { p with table := y.table } := by
  obtain ⟨us, e, y, hy⟩ := Runs.exists_runs (p.expandedText src)
  rw [run_of_runs hy name] at h
  cases e with
  | fault e => cases h
  | eof =>
      cases h
      exact ⟨y, hy, rfl⟩

/-- The run of a source text, if it takes less than `n` steps for each of less than `n` tokens. -/
def runWithin (n : Nat) (src : Text) (p : Preprocessor) : Option (List Token × End × Table) :=
  (p.expandedText src).runWithin n

theorem run_of_runWithin {n : Nat} {T : Table} (h : p.runWithin n src = some (ts, e, T))
    (name : Text) :
    ∃ events, p.run name src =
      (⟨ts, (e.inFile name).error?⟩, events, { p with table := T }) := by
  obtain ⟨y, hy, rfl⟩ := ExpandedText.runs_of_runWithin h
  exact ⟨_, run_of_runs hy name⟩

/-- A line feed as it is scanned. -/
def Sample.newline (pos : Pos) : Token :=
  { kind := .whitespace, text := ascii "\n", pos, length := 1, newline := true }

end Preprocessor
end CPreprocessor

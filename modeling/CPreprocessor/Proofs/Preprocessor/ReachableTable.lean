import CPreprocessor.Proofs.Directive.Step
import CPreprocessor.Proofs.Macro.Closure
import CPreprocessor.Proofs.Macro.Evaluation
import CPreprocessor.Proofs.Macro.IndexedExpansion
import CPreprocessor.Proofs.Preprocessor.Run

/-!
The macro tables that sources lead to. A directive line leaves the table as it is, or it defines
or removes one macro; so the tables stay well formed from token to token, and expansion by
positions, which relies on the form of the macros, is expansion with each of them.
-/

namespace CPreprocessor

namespace Directive

theorem Changes.wellFormed {T T' : Table} (h : Changes T T') (hT : T.WellFormed) :
    T'.WellFormed := by
  cases h with
  | define h => exact Definition.wellFormed_define hT h
  | undef h => exact Definition.wellFormed_undef hT h

theorem wellFormed_execute {st : State} (hT : st.table.WellFormed) (keep : Bool) (hash : Token)
    (l : Line) : (execute keep hash l st).1.table.WellFormed := by
  rcases table_execute keep hash l st with heq | hc
  · rwa [heq]
  · exact hc.wellFormed hT

end Directive

namespace ActiveText

variable {σ : Type} [Feed σ]

/-- The table stays well formed with every token. -/
theorem wellFormed_pull {x : ActiveText σ} (h : x.state.table.WellFormed) :
    x.pull.state.state.table.WellFormed := by
  fun_induction pull x with
  | case1 | case2 | case3 | case7 => exact h
  | case4 x _ t s _ _ line s' _ state e hx =>
      have hexec := Directive.wellFormed_execute h x.keepUnknown t line
      rwa [hx] at hexec
  | case5 x _ t s _ _ line s' _ state u us hx =>
      have hexec := Directive.wellFormed_execute h x.keepUnknown t line
      rwa [hx] at hexec
  | case6 x _ t s _ _ line s' _ state hx ih =>
      have hexec := Directive.wellFormed_execute h x.keepUnknown t line
      rw [hx] at hexec
      exact ih hexec
  | case8 x _ t s _ _ _ ih => exact ih h

theorem keeps_wellFormed :
    Source.Keeps (fun _ => True) fun x : ActiveText σ => x.state.table.WellFormed :=
  .of_pull (fun h => ⟨fun _ _ _ => trivial, wellFormed_pull h⟩) fun _ _ _ _ _ => trivial

end ActiveText

namespace Preprocessor

variable {p : Preprocessor}

theorem wellFormed_execute (hT : p.table.WellFormed) (src : Text) :
    (p.execute src).2.table.WellFormed := by
  obtain ⟨ts, e, x, h⟩ := Source.Runs.exists_runs
    (ActiveText.ofSource (Lexer.ofText src) p.table false)
  have hx := (ActiveText.keeps_wellFormed.runs h hT).2
  simp only [execute, h.drain]
  exact hx

theorem wellFormed_run (hT : p.table.WellFormed) (name src : Text) :
    (p.run name src).2.2.table.WellFormed := by
  obtain ⟨ts, e, y, h⟩ := Source.Runs.exists_runs (p.expandedText src)
  have hclosed : Token.Closed fun _ => True :=
    ⟨fun _ => trivial, fun _ => trivial, fun _ _ => trivial, fun _ _ _ => trivial⟩
  have hkeeps := ExpandedText.keeps hclosed (ActiveText.keeps_wellFormed (σ := Lexer))
  rw [run_of_runs h name]
  exact (hkeeps.runs h (.ofSource hT)).2.input.source

end Preprocessor

namespace Table

/-- The tables that sources lead to: from no macros, by taking tokens from the active text of any
source, by predefining and removing macros, and by preprocessing source texts. -/
inductive Reachable : Table → Prop where
  | empty : Reachable {}
  | pull {σ : Type} [Feed σ] {x : ActiveText σ} :
      Reachable x.state.table → Reachable x.pull.state.state.table
  | define {p : Preprocessor} (definition : Text) :
      Reachable p.table → Reachable (p.define definition).2.table
  | undef {p : Preprocessor} (name : Text) :
      Reachable p.table → Reachable (p.undef name).2.table
  | run {p : Preprocessor} (name src : Text) :
      Reachable p.table → Reachable (p.run name src).2.2.table

theorem Reachable.wellFormed {T : Table} (h : T.Reachable) : T.WellFormed := by
  induction h with
  | empty => exact .empty
  | pull _ ih => exact ActiveText.wellFormed_pull ih
  | define definition _ ih => exact Preprocessor.wellFormed_execute ih _
  | undef name _ ih => exact Preprocessor.wellFormed_execute ih _
  | run name src _ ih => exact Preprocessor.wellFormed_run ih name src

/-- A table that sources lead to is well formed, and a macro has the name it is found by.
Expansion with it takes no index that is out of range, whatever the tokens. -/
theorem Reachable.indexed_expandAt {T : Table} (h : T.Reachable) :
    T.WellFormed ∧ (∀ key m, T.lookup key = some m → m.name = key) ∧
      ∀ keep depth ctx ts, Indexed.expandAt T keep depth ctx ts =
        some (Expansion.expandAt T keep depth ctx ts) := by
  refine ⟨h.wellFormed, fun key m hm => name_of_lookup hm, fun keep depth ctx ts => ?_⟩
  exact Indexed.expandAt_eq h.wellFormed keep depth ctx ts

namespace Sample

/-- A macro with both operators and variable arguments. -/
def variadic : Text :=
  ascii "#define f(x, ...) #x x ## __VA_ARGS__\n"

/-- An invocation without variable arguments. -/
def invocation : List Token :=
  [{ kind := .identifier, text := ascii "f" }, { kind := .punctuator, text := ascii "(" },
    { kind := .identifier, text := ascii "a" }, { kind := .punctuator, text := ascii ")" }]

end Sample

theorem Reachable.indexed_expandAt_variadic :
    ∃ T out, Reachable T ∧ T.WellFormed ∧
      Indexed.expandAt T false 0 [] Sample.invocation = some ⟨out, none⟩ ∧
      out.map Token.text = [ascii "\"a\"", ascii " ", ascii "a"] := by
  have hcheck : (({} : Preprocessor).runWithin 9 Sample.variadic).any (fun r =>
      (Expansion.expandWithin r.2.2 false 9 0 [] Sample.invocation).any fun out =>
        out.error = none ∧
        out.tokens.map Token.text = [ascii "\"a\"", ascii " ", ascii "a"]) = true := by
    decide +kernel
  obtain ⟨⟨ts, e, T⟩, hr, hT⟩ := (Option.any_eq_true _ _).1 hcheck
  obtain ⟨⟨out, error⟩, hx, hok⟩ := (Option.any_eq_true _ _).1 hT
  obtain ⟨rfl, hwords⟩ := of_decide_eq_true hok
  obtain ⟨events, hrun⟩ := Preprocessor.run_of_runWithin hr []
  have hreach : Reachable T := by
    have hend := Reachable.run (p := {}) [] Sample.variadic .empty
    rwa [hrun] at hend
  obtain ⟨hform, -, hindexed⟩ := hreach.indexed_expandAt
  refine ⟨T, out, hreach, hform, ?_, hwords⟩
  rw [hindexed, Expansion.expandAt_of_within hx]

end Table
end CPreprocessor

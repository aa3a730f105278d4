import CPreprocessor.Proofs.Condition.Failure
import CPreprocessor.Proofs.Directive.BrokenLine
import CPreprocessor.Proofs.Directive.Placement
import CPreprocessor.Proofs.Macro.Failure

/-!
How directive lines fail. What a line states is read, checked and evaluated without a word about
the groups that are open, so a nesting error never comes from there: it can only come from the
stack of open groups, after the line has been read to its end.
-/

namespace CPreprocessor

open Directive
open Error (KindAt)

namespace Line

/-- The line does not break off with an error of the kind `k`. -/
def EndAvoids (k : FaultKind) (l : Line) : Prop :=
  ∀ e, l.ending = .fault e → e.kind ≠ k

variable {l : Line}

theorem EndAvoids.split {k : FaultKind} (h : l.EndAvoids k) : Avoids k l.split := by
  unfold Line.split
  split
  · exact .ok _
  · exact .ok _
  · rename_i e _ he
    exact .error (h e he)

theorem EndAvoids.finish {k : FaultKind} (h : l.EndAvoids k) : Avoids k l.finish :=
  h.split.map _

theorem EndAvoids.takeLineEnd (h : l.EndAvoids .nesting) :
    Avoids .nesting (TokenStream.takeLineEnd l).1 := by
  obtain ⟨ts, ending⟩ := l
  induction ts with
  | nil =>
      rw [TokenStream.takeLineEnd]
      cases ending with
      | eof => exact .ok _
      | fault e => exact .error (h e rfl)
  | cons t ts ih =>
      rw [TokenStream.takeLineEnd]
      simp only [TokenStream.next, next]
      split
      · exact .ok _
      · split
        · exact ih h
        · exact .error (by simp [Fault.kind])

end Line

namespace Macro

variable {S : Pos → Prop}

theorem kindAt_paramError {pos : Pos} (hpos : S pos) {seen ps : List Text} {e : Error}
    (h : paramError pos seen ps = some e) : KindAt .directive S e := by
  induction ps generalizing seen with
  | nil => cases h
  | cons p ps ih =>
      rw [paramError] at h
      split at h
      · cases h
        exact .here hpos rfl
      · split at h
        · cases h
          exact .here hpos rfl
        · exact ih h

theorem kindAt_bodyError {m : Macro} {ts : List Token} (hts : ∀ t ∈ ts, S t.pos) {e : Error}
    (h : bodyError m ts = some e) : KindAt .directive S e := by
  induction ts with
  | nil => cases h
  | cons t ts ih =>
      obtain ⟨ht, hts⟩ := List.forall_mem_cons.1 hts
      rw [bodyError] at h
      split at h
      · cases h
        exact .here ht rfl
      · split at h
        · cases h
          exact .here ht rfl
        · exact ih hts h

theorem kindAt_error? {m : Macro} (hpos : S m.pos) (hbody : ∀ t ∈ m.body, S t.pos) {e : Error}
    (h : m.error? = some e) : KindAt .directive S e := by
  unfold error? at h
  split at h
  · cases h
    exact .here hpos rfl
  · split at h
    · rename_i hp
      cases h
      exact kindAt_paramError hpos hp
    · split at h
      · cases h
        exact .here hpos rfl
      · exact kindAt_bodyError hbody h

end Macro

theorem Table.kindAt_define {S : Pos → Prop} {m : Macro} (hpos : S m.pos)
    (hbody : ∀ t ∈ m.body, S t.pos) (T : Table) :
    FailsIn (KindAt .directive S) (T.define m) := by
  unfold Table.define
  simp only
  split
  · rename_i he
    exact .error (Macro.kindAt_error? (m := { m with body := Token.trim m.body }) hpos
      (Token.all_trim hbody) he)
  · exact .ok _

theorem Table.failsAs_define (T : Table) (m : Macro) : FailsAs .directive (T.define m) :=
  fun e he => (T.kindAt_define (S := fun _ => True) trivial (fun _ _ => trivial) e he).kind

namespace Definition

variable {l : Line}

theorem avoids_readName (h : l.EndAvoids .nesting) : Avoids .nesting (readName l) := by
  obtain ⟨ts, ending⟩ := l
  intro f hf hk
  have hv := verdict_readName ts ending
  rw [hf, verdict_error, hk] at hv
  split at hv
  · cases ending with
    | eof => cases hv
    | fault e => exact h e rfl (Except.error.inj hv).symm
  · split at hv <;> cases hv

theorem avoids_params {ending : End} (h : ∀ e, ending = .fault e → e.kind ≠ .nesting)
    (name : Token) (st : Expecting) (ts : List Token) :
    Avoids .nesting (params name ending st ts) := by
  induction ts generalizing st with
  | nil =>
      rw [params.eq_def]
      cases ending with
      | eof => exact .error (by simp [Fault.kind])
      | fault e => exact .error (h e rfl)
  | cons t ts ih =>
      have hdirective {fault : Fault} {pos : Pos} (hf : fault.kind = .directive) :
          Avoids .nesting (.error { fault, pos } : Except Error (List Text × List Token)) :=
        .error (by simp [hf])
      rw [params.eq_def]
      simp only
      split
      · exact ih st
      · split
        · exact hdirective rfl
        · cases st with
          | separator =>
              simp only
              split
              · exact .ok _
              · split
                · exact ih _
                · exact hdirective rfl
          | afterEllipsis =>
              simp only
              split
              · exact .ok _
              · exact hdirective rfl
          | first | param =>
              simp only
              split
              · exact .ok _
              · split
                · exact ih _
                · split
                  · split
                    · exact hdirective rfl
                    · exact (ih _).map _
                  · exact hdirective rfl

theorem avoids_head (h : l.EndAvoids .nesting) (name : Token) : Avoids .nesting (head name l) := by
  unfold head
  split
  · split
    · exact .ok _
    · rename_i e he
      exact .error (h e he)
  · split
    · exact (avoids_params h name _ _).map _
    · split
      · exact .ok _
      · exact .error (by simp [Fault.kind])

theorem avoids_of_readName {name : Token} {l' : Line} {k : FaultKind} (h : l.EndAvoids k)
    (hr : readName l = .ok (name, l')) : l'.EndAvoids k := by
  have hl : l'.ending = l.ending := ending_of_readName hr
  exact fun e he => h e (hl.symm.trans he)

theorem avoids_of_head {name : Token} {ps : Option (List Text)} {l' : Line} {k : FaultKind}
    (h : l.EndAvoids k) (hh : head name l = .ok (ps, l')) : l'.EndAvoids k := by
  have hl : l'.ending = l.ending := ending_of_head hh
  exact fun e he => h e (hl.symm.trans he)

theorem avoids_define (h : l.EndAvoids .nesting) (T : Table) : Avoids .nesting (define T l) := by
  have hread : Avoids .nesting (read l) := by
    refine (avoids_readName h).bind fun ⟨name, l₁⟩ hn => ?_
    have h₁ := avoids_of_readName h hn
    refine (avoids_head h₁ name).bind fun ⟨ps, l₂⟩ hh => ?_
    exact (avoids_of_head h₁ hh).split.bind fun _ _ => .ok _
  refine hread.bind fun ⟨m, stop⟩ _ => ?_
  exact (Avoids.of_failsAs (T.failsAs_define m) (by decide)).bind fun _ _ => .ok _

theorem avoids_undef (h : l.EndAvoids .nesting) (T : Table) : Avoids .nesting (undef T l) := by
  refine (avoids_readName h).bind fun ⟨name, l₁⟩ hn => ?_
  exact (avoids_of_readName h hn).takeLineEnd.bind fun _ _ => .ok _

end Definition

namespace Condition

theorem avoids_holds (T : Table) (pos : Pos) (ts : List Token) :
    Avoids .nesting (holds T pos ts) := by
  refine Avoids.map ?_ _
  refine (Avoids.of_failsAs (failsAs_replaceDefined T ts) (by decide)).bind fun resolved _ => ?_
  simp only
  split
  · rename_i e he
    exact .error (by rw [Expansion.kind_of_expandAt he]; decide)
  · split
    · exact .error (by simp [Fault.kind])
    · exact .of_failsAs (Expression.failsAs_evaluate _ _) (by decide)

end Condition

namespace Directive.State

variable {l : Line}

theorem avoids_definedCheck (h : l.EndAvoids .nesting) (name : Token) (st : State) :
    Avoids .nesting (st.definedCheck name l) := by
  obtain ⟨ts, ending⟩ := l
  simp only [definedCheck, Line.takeSpace_gaps]
  cases ts.dropWhile Token.isGap with
  | nil =>
      cases ending with
      | eof => exact .error (by rw [Error.kind_orAt]; decide)
      | fault e => exact .error (h e rfl)
  | cons t rest =>
      simp only [List.cons_ne_nil, if_false, TokenStream.takeName, TokenStream.next, Line.next]
      split
      · rename_i hn
        split at hn <;> cases hn
        exact .error (by rw [Error.kind_orAt]; simp [Fault.kind])
      · rename_i l' hn
        split at hn <;> cases hn
        have hl : Line.EndAvoids .nesting ⟨rest, ending⟩ := h
        exact hl.takeLineEnd.bind fun _ _ => .ok _

theorem avoids_conditionCheck (h : l.EndAvoids .nesting) (name : Token) (st : State) :
    Avoids .nesting (st.conditionCheck name l) := by
  refine h.split.bind fun ⟨body, stop⟩ _ => ?_
  exact (Condition.avoids_holds _ _ _).bind fun _ _ => .ok _

theorem avoids_closingEnd (h : l.EndAvoids .nesting) (st : State) :
    Avoids .nesting (st.closingEnd l) := by
  unfold closingEnd
  split
  · exact h.takeLineEnd
  · exact h.finish

theorem avoids_openGroup (h : l.EndAvoids .nesting) (name : Token)
    {check : Except Error (Bool × Option Token)} (hc : Avoids .nesting check) (st : State) :
    Avoids .nesting (st.openGroup name l check).2 := by
  unfold openGroup
  split
  · split
    · rename_i e
      exact .error (hc e rfl)
    · exact .ok _
  · exact h.finish

theorem avoids_changeTable (h : l.EndAvoids .nesting)
    {change : Except Error (Table × Option Token)} (hc : Avoids .nesting change) (st : State) :
    Avoids .nesting (st.changeTable l change) := by
  unfold changeTable
  split
  · exact hc.map _
  · exact h.finish.map _

end Directive.State
end CPreprocessor

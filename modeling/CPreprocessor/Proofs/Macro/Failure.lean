import CPreprocessor.Proofs.Macro.Scan

/-!
How expansion fails. A replacement cannot be put together only where two tokens do not join;
whatever else is wrong with the text of an expansion, the error is one of invocation.
-/

namespace CPreprocessor

namespace Substitution

theorem fault_of_paste {l r : Token} {e : Error} (h : paste l r = .error e) :
    ∃ a b, e.fault = .badPaste a b := by
  unfold paste at h
  split at h
  · split at h
    · cases h
      exact ⟨_, _, rfl⟩
    · cases h
  · cases h
    exact ⟨_, _, rfl⟩

theorem Draft.fault_of_join {d : Draft} {ts : List Token} {e : Error} (h : d.join ts = .error e) :
    ∃ a b, e.fault = .badPaste a b := by
  unfold join at h
  split at h
  · cases h
  · split at h
    · rename_i t ts last done hd
      cases hp : paste last t with
      | error e' =>
          rw [hp] at h
          cases h
          exact fault_of_paste hp
      | ok joined =>
          rw [hp] at h
          cases h
    · cases h

theorem fault_of_assemble {d : Draft} {els : List Element} {e : Error}
    (h : assemble d els = .error e) : ∃ a b, e.fault = .badPaste a b := by
  fun_induction assemble d els with
  | case1 | case3 => cases h
  | case2 d space ts els ih => exact ih h
  | case4 d el els ih =>
      cases hj : d.join el.toTokens with
      | error e' =>
          rw [hj] at h
          cases h
          exact Draft.fault_of_join hj
      | ok d₁ =>
          rw [hj] at h
          exact ih d₁ h

theorem fault_of_substitute {m : Macro} {args : List Argument} {e : Error}
    (h : substitute m args = .error e) : ∃ a b, e.fault = .badPaste a b := by
  unfold substitute at h
  cases ha : assemble {} (elements m (m.params.zip args) false false m.body) with
  | error e' =>
      rw [ha] at h
      cases h
      exact fault_of_assemble ha
  | ok d =>
      rw [ha] at h
      cases h

end Substitution

namespace Arguments

theorem failsAs_collect (name : Token) (depth : Nat) (ts : List Token) :
    FailsAs .invocation (collect name depth ts).1 := by
  induction ts generalizing depth with
  | nil =>
      rw [collect_of_stop rfl]
      exact .error rfl
  | cons t ts ih =>
      rw [collect_of_token (s := ts) rfl]
      split
      · exact (ih _).map _
      · split
        · split
          · exact .ok _
          · exact (ih _).map _
        · split
          · exact (ih _).map _
          · exact (ih _).map _

theorem failsAs_assign (m : Macro) (name : Token) (raw : List (List Token)) :
    FailsAs .invocation (assign m name raw) := by
  unfold assign
  simp only
  split
  · split
    · exact .ok _
    · exact .error rfl
  · split
    · split
      · exact .error rfl
      · exact .ok _
    · split
      · exact .error rfl
      · split
        · exact .error rfl
        · exact .ok _

end Arguments

namespace Expansion

theorem kind_of_invocation {m : Macro} {t : Token} {ts rest : List Token} {e : Error}
    (h : invocation m t ts = .stop (.fault e) rest) : e.kind = .invocation := by
  rw [invocation_eq] at h
  split at h
  · cases h
  · split at h
    · unfold argumentsStep at h
      split at h
      · rename_i hc
        cases h
        exact Arguments.failsAs_collect _ _ _ _ (congrArg Prod.fst hc)
      · split at h
        · rename_i ha
          cases h
          exact Arguments.failsAs_assign _ _ _ _ ha
        · cases h
    · cases h

theorem kind_of_step {T : Table} {keep : Bool} {depth : Nat} {ctx : Context}
    {ts rest : List Token} {e : Error}
    (h : step (fun _ => T) keep depth ctx ts = .stop (.fault e) rest) : e.kind = .invocation := by
  cases ts with
  | nil => cases h
  | cons t ts =>
      have hcase := step_cases T keep depth ctx t ts
      rw [h] at hcase
      generalize hst : Step.stop (.fault e) rest = st at hcase
      cases hcase with
      | pass | operand | object => cases hst
      | variadic | tooDeep =>
          cases hst
          rfl
      | function => exact kind_of_invocation hst.symm

theorem kind_of_expandAt {T : Table} {keep : Bool} {depth : Nat} {ctx : Context} {ts : List Token}
    {e : Error} (h : (expandAt T keep depth ctx ts).error = some e) : e.kind = .invocation := by
  rcases Scan.exists_origin (s := ⟨depth, ctx, ts⟩) h with
    ⟨s, rest, -, hs⟩ | ⟨m, args, hs⟩
  · exact kind_of_step hs
  · obtain ⟨l, r, hf⟩ := Substitution.fault_of_substitute hs
    rw [Error.kind, hf]
    rfl

end Expansion
end CPreprocessor

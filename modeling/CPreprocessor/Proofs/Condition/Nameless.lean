import CPreprocessor.Condition
import CPreprocessor.Proofs.Condition.IntegerConstant
import CPreprocessor.Proofs.Condition.Parsing
import CPreprocessor.Proofs.Macro.ExpandedText

/-!
Conditions without names. They are evaluated as they stand, whatever macros are defined.
-/

namespace CPreprocessor

section Names

variable {ts : List Token} (h : ∀ t ∈ ts, t.kind ≠ .identifier)
include h

/-- Without names there is nothing to expand. -/
theorem Expansion.expandAt_of_no_name (T : Table) (keep : Bool) (depth : Nat) (ctx : Context) :
    expandAt T keep depth ctx ts = ⟨ts, none⟩ := by
  induction ts with
  | nil => exact expandAt_of_stop (e := .eof) rfl
  | cons t ts ih =>
      rw [expandAt_of_emit (ExpandedText.step_of_next rfl (h t List.mem_cons_self) _ _ _ _),
        ih fun u hu => h u (List.mem_cons_of_mem t hu)]
      rfl

namespace Condition

theorem replaceDefined_of_no_name (T : Table) : replaceDefined T ts = .ok ts := by
  induction ts with
  | nil => rw [replaceDefined]
  | cons t ts ih =>
      have ht : ¬t.isIdent Vocabulary.definedName = true := by
        simp [Token.isIdent, h t List.mem_cons_self]
      rw [replaceDefined, if_neg ht, ih fun u hu => h u (List.mem_cons_of_mem t hu)]
      rfl

/-- A condition without names has the value of its tree. -/
theorem evaluate_of_no_name {e : Expression.Tree}
    (hy : Expression.Yields .comma e (Token.solid ts)) {T : Table} {v : Value}
    (hv : e.run T true = some v) (pos : Pos) : evaluate T pos ts = .ok v := by
  rw [evaluate, replaceDefined_of_no_name h]
  simp only [except_ok_bind, expandKeepingDefined, Expansion.expandAt_of_no_name h]
  split
  · rename_i hlast
    have heval := hy.evaluate ⟨T, pos⟩ hv
    rw [List.getLast?_eq_none_iff.1 hlast] at heval
    rw [Expression.evaluate_eq_ok_iff_read] at heval
    exact absurd (Expression.Rank.length_lt_of_read _ _ heval) (Nat.lt_irrefl _)
  · exact hy.evaluate _ hv

/-- A condition that is one number holds or not whatever the macros are. -/
theorem holds_of_number {t : Token} (hs : Token.solid ts = [t]) (ht : t.kind = .number)
    {v : Value} (hv : Constant.number t = .ok v) (T : Table) (pos : Pos) :
    holds T pos ts = .ok v.isTrue := by
  have hyields : Expression.Yields .comma (.number t) (Token.solid ts) :=
    hs ▸ .last (.single (.ofNumber ht (by decide)))
  have hrun : (Expression.Tree.number t).run T true = some v := by
    simp only [Expression.Tree.run, hv]
    rfl
  rw [holds, evaluate_of_no_name h hyields hrun]
  rfl

end Condition

end Names

end CPreprocessor

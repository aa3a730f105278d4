import CPreprocessor.Proofs.Condition.Failure
import CPreprocessor.Proofs.Macro.Location

/-!
Where the errors of a condition stand: at tokens of its line, in macro bodies or at the
directive.
-/

namespace CPreprocessor

open Error (Located)

variable {S : Pos → Prop}

theorem AllEvaluation.located : AllEvaluation (Located S) S :=
  fun fault _ _ h => .here h fault

namespace Condition

/-- The errors of a condition stand in its line, in macro bodies, or at the directive. -/
theorem located_holds {T : Table} (hT : T.All fun t => S t.pos) {pos : Pos} (hpos : S pos)
    {ts : List Token} (h : ∀ t ∈ ts, S t.pos) : FailsIn (Located S) (holds T pos ts) := by
  have heval : Leaves (Located S) S (fun _ => []) (evaluate T pos ts) := by
    refine (leaves_replaceDefined .located T h).bind fun us hus => ?_
    have hout : ∀ t ∈ (expandKeepingDefined T us).tokens, S t.pos :=
      Expansion.all_expandAt (Token.closed_pos S) hT hus
    simp only
    split
    · rename_i he
      exact .error (Expansion.located_expandAt hT hus he)
    · have hsolid : ∀ t ∈ Token.solid (expandKeepingDefined T us).tokens, S t.pos :=
        fun t ht => hout t (List.mem_filter.1 ht).1
      split
      · exact .error (.here hpos _)
      · rename_i last hlast
        exact .of_failsIn (Expression.failsIn_evaluate .located
          (hsolid last (List.mem_of_getLast? hlast)) hsolid)
  exact heval.fails.map _

end Condition
end CPreprocessor

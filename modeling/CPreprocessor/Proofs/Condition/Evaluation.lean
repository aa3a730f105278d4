import CPreprocessor.Proofs.Condition.Grammar

/-!
Trees evaluated the way they are read, with a mark that says whether the value counts. A
marked run is the evaluation of the tree, and a run that does not count has the signedness of
the tree and fails only on malformed constants.
-/

namespace CPreprocessor

namespace Value

theorem toOption_apply_pos (op : BinaryOp) (live : Bool) (p q : Pos) (l r : Value) :
    (apply op live p l r).toOption = (apply op live q l r).toOption := by
  cases op
  case shl | shr =>
      simp only [apply, shift]
      split
      · cases live <;> rfl
      · rfl
  case div | rem =>
      simp only [apply]
      split
      · rfl
      · cases live <;> rfl
  all_goals rfl

/-- An operation that does not count cannot fail. -/
theorem unsigned_apply_idle (op : BinaryOp) (p : Pos) (l r : Value) :
    (apply op false p l r).toOption.map unsigned = some (op.joins l.unsigned r.unsigned) := by
  cases op
  case shl | shr =>
      simp only [apply, shift]
      split <;> rfl
  case div | rem =>
      simp only [apply]
      split <;> rfl
  all_goals rfl

end Value

theorem UnaryOp.unsigned_apply {op : UnaryOp} (h : op ≠ .negation) (v : Value) :
    (op.apply v).unsigned = v.unsigned := by
  cases op with
  | plus | minus | complement => rfl
  | negation => exact absurd rfl h

namespace Expression
namespace Tree

/-- The value with the mark `live`. An operand counts if its operation does and takes it. -/
def run (T : Table) (live : Bool) : Tree → Option Value
  | number t => (Constant.number t).toOption
  | character t => (Constant.character t).toOption
  | name t => some (.ofBool (t.text == ascii "true"))
  | defined n => some (.ofBool (T.isDefined n.text))
  | unary op e => (run T live e).map op.apply
  | binary op l r =>
    (run T live l).bind fun x =>
      (run T (live && op.needsRight x) r).bind fun y => (x.apply op live {} y).toOption
  | conditional c a b =>
    (run T live c).bind fun x =>
      (run T (live && x.isTrue) a).bind fun y =>
        (run T (live && !x.isTrue) b).map fun z => choose x y z
  | comma l r => (run T live l).bind fun _ => run T live r

theorem sign_eq_run_idle (T : Table) (e : Tree) : e.sign = (e.run T false).map Value.unsigned := by
  induction e with
  | number t | character t => rfl
  | name t | defined n => rfl
  | unary op e ih =>
      by_cases h : op = .negation
      · subst h
        simp only [sign, run, ih, Option.map_map]
        rfl
      · have hs : (unary op e).sign = e.sign := by
          cases op <;> first | rfl | exact absurd rfl h
        rw [hs, ih, run, Option.map_map]
        exact Option.map_congr fun v _ => (UnaryOp.unsigned_apply h v).symm
  | binary op l r ihl ihr =>
      simp only [sign, run, ihl, ihr, Bool.false_and]
      cases l.run T false with
      | none => rfl
      | some x =>
          cases r.run T false with
          | none => rfl
          | some y => exact (Value.unsigned_apply_idle op {} x y).symm
  | conditional c a b ihc iha ihb =>
      simp only [sign, run, ihc, iha, ihb, Bool.false_and]
      cases c.run T false with
      | none => rfl
      | some x =>
          cases a.run T false with
          | none => rfl
          | some y => cases b.run T false <;> rfl
  | comma l r ihl ihr =>
      simp only [sign, run, ihl, ihr]
      cases l.run T false <;> rfl

theorem eval_eq_run (T : Table) (e : Tree) : e.eval T = e.run T true := by
  induction e with
  | number t | character t => rfl
  | name t | defined n => rfl
  | unary op e ih => simp only [eval, run, ih]
  | binary op l r ihl ihr =>
      cases op
      -- The operators that may not take their right operand are different from all others.
      case or | and =>
        simp only [eval, run, ihl, ihr, Bool.true_and, BinaryOp.needsRight, Value.apply]
        congr 1
        funext x
        cases h : x.isTrue <;>
          simp only [sign_eq_run_idle T, Bool.not_true, Bool.not_false] <;>
          cases r.run T false <;> cases r.run T true <;> rfl
      all_goals simp only [eval, run, ihl, ihr, Bool.true_and, BinaryOp.needsRight]
  | conditional c a b ihc iha ihb =>
      simp only [eval, run, ihc, iha, ihb, Bool.true_and]
      congr 1
      funext x
      cases h : x.isTrue with
      | true =>
          simp only [sign_eq_run_idle T, choose, h, Bool.not_true, if_true]
          congr 1
          funext y
          cases b.run T false <;> rfl
      | false =>
          simp only [sign_eq_run_idle T, choose, h, Bool.not_false, Bool.false_eq_true, if_false]
          cases a.run T false <;> rfl
  | comma l r ihl ihr => simp only [eval, run, ihl, ihr]

end Tree
end Expression
end CPreprocessor

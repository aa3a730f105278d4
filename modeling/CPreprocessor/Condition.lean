import CPreprocessor.Condition.Expression
import CPreprocessor.Macro.Expansion

/-!
The conditions of `#if` and `#elif`. The operator `defined` is resolved first, so that its
operand is not expanded; then macros are expanded and the expression is evaluated.
-/

namespace CPreprocessor
namespace Condition

open Expression (nameOperand length_lt_of_nameOperand)

/-- The number token that a resolved `defined` becomes. -/
def truth (pos : Pos) (b : Bool) : Token :=
  { kind := .number, text := if b then ascii "1" else ascii "0", pos }

/-- Replaces every `defined` on a line, with its operand, by one or zero. -/
def replaceDefined (table : Table) (ts : List Token) : Except Error (List Token) :=
  match ts with
  | [] => .ok []
  | t :: rest =>
    if t.isIdent Vocabulary.definedName then
      match _h : nameOperand table t.pos rest with
      | .error e => .error e
      | .ok (b, rest') => (replaceDefined table rest').map (truth t.pos b :: ·)
    else (replaceDefined table rest).map (t :: ·)
termination_by ts.length
decreasing_by
  · have := length_lt_of_nameOperand _h
    simp only [List.length_cons]
    omega
  · simp

/-- The value of the condition on a line of a directive at `pos`. -/
def evaluate (table : Table) (pos : Pos) (line : List Token) : Except Error Value := do
  let resolved ← replaceDefined table line
  let out := expandKeepingDefined table resolved
  match out.error with
  | some e => .error e
  | none =>
    let ts := Token.solid out.tokens
    match ts.getLast? with
    | none => .error { fault := .missingExpression, pos }
    | some last => Expression.evaluate { table, stop := last.pos } ts

/-- Whether the condition on a line of a directive at `pos` holds. -/
def holds (table : Table) (pos : Pos) (line : List Token) : Except Error Bool :=
  (evaluate table pos line).map Value.isTrue

end Condition
end CPreprocessor

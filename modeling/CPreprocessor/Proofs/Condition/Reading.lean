import CPreprocessor.Proofs.Condition.Evaluation
import CPreprocessor.Proofs.Condition.Operators

/-!
What the functions that read expressions return, without the causes of failure and the bounds
on what is left. In this form there is one function per rank of the grammar and one equation
for each. For the binary operators the reader has one function that climbs: its equations are
those of the levels, because climbing from a level on is climbing from the next one on and then
taking the operators of the level from what that leaves.
-/

namespace CPreprocessor
namespace Expression

/-- The value of a part of an expression and the tokens left after it. -/
def reading {p : List Token → Prop}
    (r : Except Error (Value × { rest : List Token // p rest })) :
    Option (Value × List Token) :=
  r.toOption.map fun x => (x.1, x.2.1)

theorem property_of_reading {p : List Token → Prop}
    {r : Except Error (Value × { rest : List Token // p rest })} {v : Value} {rest : List Token}
    (h : reading r = some (v, rest)) : p rest := by
  rcases r with e | ⟨w, rest', h'⟩
  · simp [reading, Except.toOption] at h
  · simp only [reading, Except.toOption, Option.map_some, Option.some.injEq, Prod.mk.injEq] at h
    exact h.2 ▸ h'

theorem reading_bind {p q : List Token → Prop}
    {f : Value × { rest : List Token // p rest } →
      Except Error (Value × { rest : List Token // q rest })}
    {g : Value × List Token → Option (Value × List Token)}
    (h : ∀ v rest hr, reading (f (v, ⟨rest, hr⟩)) = g (v, rest))
    (r : Except Error (Value × { rest : List Token // p rest })) :
    reading (r >>= f) = (reading r).bind g := by
  cases r with
  | error e => rfl
  | ok x => exact h x.1 x.2.1 x.2.2

theorem reading_bind_ok {p q : List Token → Prop}
    {f : Value × { rest : List Token // p rest } →
      Except Error (Value × { rest : List Token // q rest })}
    (h : ∀ x, reading (f x) = some (x.1, x.2.1))
    (r : Except Error (Value × { rest : List Token // p rest })) :
    reading (r >>= f) = reading r := by
  cases r with
  | error e => rfl
  | ok x => exact h x

/-- What is left after a closing token, which must come first. -/
def closed? (s : Text) : List Token → Option (List Token)
  | [] => none
  | k :: rest => if k.isPunct s then some rest else none

theorem reading_expect {c : Closer} {ts : List Token} {p : List Token → Prop}
    {f : { rest : List Token // rest.length < ts.length } →
      Except Error (Value × { rest : List Token // p rest })}
    {g : List Token → Option (Value × List Token)}
    (h : ∀ rest hr, reading (f ⟨rest, hr⟩) = g rest) (env : Env) :
    reading (expect env c ts >>= f) = (closed? c.spelling ts).bind g := by
  have hc : ∀ a ∈ alternatives, a.2 ≠ c.spelling := by
    cases c <;> decide
  cases ts with
  | nil => rfl
  | cons k rest =>
      simp only [expect, closed?, operator?_eq_some_iff, stands_iff_isPunct hc]
      split
      · exact h rest (by simp)
      · rfl

namespace Rank

/-- Reads an expression of a rank. -/
def read (env : Env) (live : Bool) : Rank → List Token → Option (Value × List Token)
  | comma, ts => reading (Expression.comma env live ts)
  | conditional, ts => reading (Expression.conditional env live ts)
  | binary n, ts => reading (Expression.binary env live n ts)
  | unary, ts => reading (Expression.unary env live ts)
  | primary, [] => none
  | primary, t :: ts => reading (Expression.primary env live t ts)

/-- Reads what may follow the first operand of a rank. -/
def more (env : Env) (live : Bool) : Rank → Value → List Token → Option (Value × List Token)
  | comma, v, ts => reading (commaTail env live v ts)
  | binary n, v, ts => reading (climb env live n v ts)
  | conditional, v, ts | unary, v, ts | primary, v, ts => some (v, ts)

variable (env : Env) (live : Bool)

theorem length_lt_of_read {k : Rank} {ts : List Token} {x : Value × List Token}
    (h : k.read env live ts = some x) : x.2.length < ts.length := by
  cases k with
  | comma | conditional | binary n | unary => exact property_of_reading h
  | primary =>
      cases ts with
      | nil => cases h
      | cons t ts => exact property_of_reading h

theorem read_comma (ts : List Token) :
    comma.read env live ts =
      (conditional.read env live ts).bind fun x => comma.more env live x.1 x.2 := by
  rw [read, Expression.comma]
  apply reading_bind
  intro v rest hr
  exact reading_bind_ok (fun _ => rfl) _

theorem more_comma_nil (v : Value) : comma.more env live v [] = some (v, []) := by
  rw [more, commaTail]
  rfl

theorem more_comma_cons (v : Value) (t : Token) (rest : List Token) :
    comma.more env live v (t :: rest) =
      if t.isPunct (ascii ",") then
        (conditional.read env live rest).bind fun x => comma.more env live x.1 x.2
      else some (v, t :: rest) := by
  rw [more, commaTail]
  simp only [operator?_eq_some_iff,
    stands_iff_isPunct (by decide : ∀ a ∈ alternatives, a.2 ≠ ascii ",")]
  split
  · apply reading_bind
    intro v rest hr
    exact reading_bind_ok (fun _ => rfl) _
  · rfl

/-- What a conditional expression does after its condition `x`. -/
def branches (x : Value) : List Token → Option (Value × List Token)
  | [] => some (x, [])
  | q :: rest =>
    if q.isPunct (ascii "?") then
      (comma.read env (live && x.isTrue) rest).bind fun y =>
        (closed? (ascii ":") y.2).bind fun rest =>
          (conditional.read env (live && !x.isTrue) rest).map fun z => (choose x y.1 z.1, z.2)
    else some (x, q :: rest)

theorem read_conditional (ts : List Token) :
    conditional.read env live ts =
      ((binary 1).read env live ts).bind fun x => branches env live x.1 x.2 := by
  rw [read, Expression.conditional]
  apply reading_bind
  intro v rest hr
  cases rest with
  | nil => rfl
  | cons q rest =>
      simp only [branches, operator?_eq_some_iff,
        stands_iff_isPunct (by decide : ∀ a ∈ alternatives, a.2 ≠ ascii "?")]
      split
      · apply reading_bind
        intro t rest₂ h₂
        apply reading_expect
        intro rest₃ h₃
        simp only [read]
        cases Expression.conditional env (live && !v.isTrue) rest₃ <;> rfl
      · rfl

theorem read_binary (n : Nat) (ts : List Token) :
    (binary n).read env live ts =
      (unary.read env live ts).bind fun x => (binary n).more env live x.1 x.2 := by
  rw [read, Expression.binary]
  apply reading_bind
  intro v rest hr
  exact reading_bind_ok (fun _ => rfl) _

theorem more_binary_nil (n : Nat) (l : Value) : (binary n).more env live l [] = some (l, []) := by
  rw [more, climb]
  rfl

theorem more_binary_cons (n : Nat) (l : Value) (t : Token) (rest : List Token) :
    (binary n).more env live l (t :: rest) =
      match binaryOp? t with
      | none => some (l, t :: rest)
      | some op =>
        if op.level < n then some (l, t :: rest)
        else
          ((binary (op.level + 1)).read env (live && op.needsRight l) rest).bind fun x =>
            (l.apply op live {} x.1).toOption.bind fun v => (binary n).more env live v x.2 := by
  rw [more, climb]
  cases binaryOp? t with
  | none => rfl
  | some op =>
      simp only
      split
      · rfl
      · apply reading_bind
        intro r rest' hr
        rw [Value.toOption_apply_pos op live {} t.pos]
        cases l.apply op live t.pos r with
        | error e => rfl
        | ok v => exact reading_bind_ok (fun _ => rfl) _

theorem read_unary_nil : unary.read env live [] = none := by
  rw [read, Expression.unary]
  rfl

theorem read_unary_cons (t : Token) (rest : List Token) :
    unary.read env live (t :: rest) =
      match unaryOp? t with
      | some op => (unary.read env live rest).map fun x => (op.apply x.1, x.2)
      | none => primary.read env live (t :: rest) := by
  rw [read, Expression.unary]
  cases unaryOp? t with
  | none => rfl
  | some op =>
      simp only [read]
      cases Expression.unary env live rest <;> rfl

theorem read_number {t : Token} (ht : t.kind = .number) (ts : List Token) :
    primary.read env live (t :: ts) = (Constant.number t).toOption.map fun v => (v, ts) := by
  rw [read, Expression.primary]
  simp only [ht]
  cases Constant.number t <;> rfl

theorem read_character {t : Token} (ht : t.kind = .character) (ts : List Token) :
    primary.read env live (t :: ts) = (Constant.character t).toOption.map fun v => (v, ts) := by
  rw [read, Expression.primary]
  simp only [ht]
  cases Constant.character t <;> rfl

theorem read_name {t : Token} (ht : t.kind = .identifier) (ho : operator? t = none)
    (hd : t.text ≠ Vocabulary.definedName) (ts : List Token) :
    primary.read env live (t :: ts) = some (.ofBool (t.text == ascii "true"), ts) := by
  rw [read, Expression.primary]
  simp only [ht, ho, hd, Option.isSome_none, Bool.false_eq_true, if_false]
  by_cases h : t.text = ascii "true"
  · rw [if_pos h, h]
    rfl
  · rw [if_neg h, beq_eq_false_iff_ne.2 h]
    rfl

theorem read_defined {t : Token} (ht : t.isIdent Vocabulary.definedName = true)
    (ts : List Token) : primary.read env live (t :: ts) =
      (nameOperand env.table t.pos ts).toOption.map fun x => (.ofBool x.1, x.2) := by
  simp only [Token.isIdent, Bool.and_eq_true, beq_iff_eq] at ht
  have ho : operator? t = none := by
    simp only [operator?, ht.1, ht.2]
    decide
  have hn : Vocabulary.definedName ≠ ascii "true" := by
    decide
  rw [read, Expression.primary]
  simp only [ht.1, ho, hn, Option.isSome_none, Bool.false_eq_true, if_false, ht.2, if_true]
  split
  · rename_i h
    rw [h]
    rfl
  · rename_i b rest h
    have hv : (nameOperand env.table t.pos ts).toOption = some (b, rest) := by
      rw [h]
      rfl
    rw [hv]
    rfl

theorem read_inside {t : Token} (ht : t.isPunct (ascii "(") = true) (ts : List Token) :
    primary.read env live (t :: ts) =
      (comma.read env live ts).bind fun x =>
        (closed? (ascii ")") x.2).map fun rest => (x.1, rest) := by
  simp only [Token.isPunct, Bool.and_eq_true, beq_iff_eq] at ht
  change reading (Expression.primary env live t ts) = _
  rw [Expression.primary]
  simp only [ht.1, ht.2]
  apply reading_bind
  intro v rest hr
  rw [Option.map_eq_bind]
  exact reading_expect (fun _ _ => rfl) env

variable {env live}

/-- The first tokens of primaries. -/
theorem head_of_read_primary {t : Token} {ts : List Token} {x : Value × List Token}
    (h : primary.read env live (t :: ts) = some x) :
    t.kind = .number ∨ t.kind = .character ∨ (t.kind = .identifier ∧ operator? t = none) ∨
      t.isPunct (ascii "(") = true := by
  rw [read, Expression.primary] at h
  cases hk : t.kind with
  | number => exact .inl rfl
  | character => exact .inr (.inl rfl)
  | identifier =>
      cases ho : operator? t with
      | none => exact .inr (.inr (.inl ⟨rfl, rfl⟩))
      | some s =>
          simp only [hk, ho, Option.isSome_some, if_true] at h
          cases h
  | punctuator =>
      by_cases ht : t.text = ascii "("
      · simp [Token.isPunct, hk, ht]
      · simp only [hk, ht, if_false] at h
        cases h
  | unclassified | whitespace | string | invalid =>
      simp only [hk] at h
      cases h

theorem read_unary_of_primary {ts : List Token} {x : Value × List Token}
    (h : primary.read env live ts = some x) : unary.read env live ts = some x := by
  cases ts with
  | nil => cases h
  | cons t ts =>
      have hop : unaryOp? t = none := by
        rcases head_of_read_primary h with hk | hk | ⟨-, ho⟩ | hk
        · simp [unaryOp?, operator?, hk]
        · simp [unaryOp?, operator?, hk]
        · rw [unaryOp?, ho]
          rfl
        · simp only [Token.isPunct, Bool.and_eq_true, beq_iff_eq] at hk
          simp only [unaryOp?, operator?, hk.1, hk.2]
          decide
      rw [read_unary_cons, hop]
      exact h

end Rank
end Expression
end CPreprocessor

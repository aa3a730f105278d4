import CPreprocessor.Proofs.Condition.Reading

/-!
Climbing against the levels of the grammar. To climb from a level on is to climb from the next
level on and to take the operators of the level from what that leaves. What a climb leaves
starts with no operator that it was told to take, so in front of the operators of a level there
are none that bind tighter.
-/

namespace CPreprocessor
namespace Expression

/-- No operator that binds tighter than `n` comes next. -/
def Loose (n : Nat) (ts : List Token) : Prop :=
  ∀ t op, ts.head? = some t → binaryOp? t = some op → op.level ≤ n

namespace Loose

theorem mono {m n : Nat} {ts : List Token} (h : Loose m ts) (hmn : m ≤ n) : Loose n ts := by
  intro t op ht hop
  exact Nat.le_trans (h t op ht hop) hmn

theorem nil (n : Nat) : Loose n [] := by
  intro t op ht
  cases ht

theorem cons_of_none {t : Token} (h : binaryOp? t = none) (n : Nat) (ts : List Token) :
    Loose n (t :: ts) := by
  intro t' op ht hop
  cases ht
  rw [h] at hop
  cases hop

theorem cons_of_le {t : Token} {op : BinaryOp} (h : binaryOp? t = some op) {n : Nat}
    (hn : op.level ≤ n) (ts : List Token) : Loose n (t :: ts) := by
  intro t' op' ht hop
  cases ht
  rw [h] at hop
  cases hop
  exact hn

/-- A punctuator that is no operator of a binary level ends every such level. -/
theorem cons_of_punct {k : Token} {s : Text} (hk : k.isPunct s = true)
    (hs : BinaryOp.ofSpelling? s = none) (n : Nat) (ts : List Token) : Loose n (k :: ts) := by
  refine cons_of_none ?_ n ts
  rw [binaryOp?, operator?_eq_some_iff.2 (.punctuator hk)]
  exact hs

end Loose

namespace Rank

variable {env : Env} {live : Bool}

/-- A climb stops at once in front of operators that are all looser. -/
theorem more_binary_of_loose {n m : Nat} {ts : List Token} (h : Loose n ts) (hnm : n < m)
    (l : Value) : (binary m).more env live l ts = some (l, ts) := by
  cases ts with
  | nil => exact more_binary_nil env live m l
  | cons t ts =>
      rw [more_binary_cons]
      cases hop : binaryOp? t with
      | none => rfl
      | some op =>
          have hlevel : op.level < m := Nat.lt_of_le_of_lt (h t op rfl hop) hnm
          exact if_pos hlevel

/-- A climb takes the first operator if it is not looser than asked for. -/
theorem more_binary_of_le {n : Nat} {t : Token} {op : BinaryOp} (hop : binaryOp? t = some op)
    (hn : n ≤ op.level) (l : Value) (rest : List Token) :
    (binary n).more env live l (t :: rest) =
      ((binary (op.level + 1)).read env (live && op.needsRight l) rest).bind fun x =>
        (l.apply op live {} x.1).toOption.bind fun v => (binary n).more env live v x.2 := by
  rw [more_binary_cons, hop]
  exact if_neg (Nat.not_lt.2 hn)

/-- In front of operators none of which binds tighter than `n`, a climb from `n` on takes
those of the level `n` alone. -/
theorem more_binary_level {n : Nat} {t : Token} {rest : List Token} (h : Loose n (t :: rest))
    (l : Value) :
    (binary n).more env live l (t :: rest) =
      match binaryOp? t with
      | none => some (l, t :: rest)
      | some op =>
        if op.level = n then
          ((binary (n + 1)).read env (live && op.needsRight l) rest).bind fun x =>
            (l.apply op live {} x.1).toOption.bind fun v => (binary n).more env live v x.2
        else some (l, t :: rest) := by
  rw [more_binary_cons]
  cases hop : binaryOp? t with
  | none => rfl
  | some op =>
      have hle : op.level ≤ n := h t op rfl hop
      by_cases hlevel : op.level = n
      · subst hlevel
        simp only [Nat.lt_irrefl, if_false, if_true]
      · have hlt : op.level < n := Nat.lt_of_le_of_ne hle hlevel
        simp only [hlt, hlevel, if_true, if_false]

/-- By induction on the tokens: an operator that binds tighter is taken by both climbs, and in
front of any other the climb of the next level stops. -/
theorem more_binary_succ (n : Nat) (l : Value) (ts : List Token) :
    (binary n).more env live l ts =
      ((binary (n + 1)).more env live l ts).bind fun x => (binary n).more env live x.1 x.2 := by
  induction hm : ts.length using Nat.strongRecOn generalizing l ts with
  | ind m ih =>
      have hstop (h : Loose n ts) : (binary n).more env live l ts =
          ((binary (n + 1)).more env live l ts).bind fun x =>
            (binary n).more env live x.1 x.2 := by
        rw [more_binary_of_loose h (Nat.lt_succ_self n)]
        rfl
      cases ts with
      | nil => exact hstop (.nil n)
      | cons t rest =>
          cases hop : binaryOp? t with
          | none => exact hstop (.cons_of_none hop n rest)
          | some op =>
              by_cases hle : op.level ≤ n
              · exact hstop (.cons_of_le hop hle rest)
              · rw [more_binary_of_le hop (by omega), more_binary_of_le hop (by omega),
                  Option.bind_assoc]
                refine Option.bind_congr fun x hx => ?_
                rw [Option.bind_assoc]
                refine Option.bind_congr fun v _ => ?_
                have hlt := length_lt_of_read env _ hx
                exact ih x.2.length (by simp only [List.length_cons] at hm; omega) v x.2 rfl

/-- An expression of a level is one of the next level with the operators of the level. -/
theorem read_binary_succ (n : Nat) (ts : List Token) :
    (binary n).read env live ts =
      ((binary (n + 1)).read env live ts).bind fun x => (binary n).more env live x.1 x.2 := by
  rw [read_binary, read_binary, Option.bind_assoc]
  exact Option.bind_congr fun x _ => more_binary_succ n x.1 x.2

/-- Above the levels of the operators nothing is joined to an operand. -/
theorem read_tightest {n : Nat} (h : 10 < n) (ts : List Token) :
    (binary n).read env live ts = unary.read env live ts := by
  have hmore (x : Value × List Token) : (binary n).more env live x.1 x.2 = some x :=
    more_binary_of_loose (n := 10) (fun _ op _ _ => level_le op) h x.1
  rw [read_binary]
  simp only [hmore, Option.bind_fun_some]

/-- What a climb leaves starts with no operator that it takes. -/
theorem loose_of_more {n : Nat} {l : Value} {ts : List Token} {x : Value × List Token}
    (h : (binary (n + 1)).more env live l ts = some x) : Loose n x.2 := by
  induction hm : ts.length using Nat.strongRecOn generalizing l ts with
  | ind m ih =>
      have hstop (hl : Loose n ts) : Loose n x.2 := by
        rw [more_binary_of_loose hl (Nat.lt_succ_self n)] at h
        cases h
        exact hl
      cases ts with
      | nil => exact hstop (.nil n)
      | cons t rest =>
          cases hop : binaryOp? t with
          | none => exact hstop (.cons_of_none hop n rest)
          | some op =>
              by_cases hle : op.level ≤ n
              · exact hstop (.cons_of_le hop hle rest)
              · rw [more_binary_of_le hop (by omega)] at h
                obtain ⟨y, hy, h⟩ := Option.bind_eq_some_iff.1 h
                obtain ⟨v, -, h⟩ := Option.bind_eq_some_iff.1 h
                have hlt := length_lt_of_read env _ hy
                exact ih y.2.length (by simp only [List.length_cons] at hm; omega) h rfl

theorem loose_of_read {n : Nat} {ts : List Token} {x : Value × List Token}
    (h : (binary (n + 1)).read env live ts = some x) : Loose n x.2 := by
  rw [read_binary] at h
  obtain ⟨y, -, h⟩ := Option.bind_eq_some_iff.1 h
  exact loose_of_more h

end Rank
end Expression
end CPreprocessor

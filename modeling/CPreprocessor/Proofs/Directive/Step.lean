import CPreprocessor.Directive
import CPreprocessor.Proofs.Outcome

/-!
What one directive line does. A line that states nothing leaves the state as it is, one of an
unknown name can only be recorded, and one of a known name runs its directive. The macro table
changes with the definition or the removal of one macro.
-/

namespace CPreprocessor
namespace Directive

/-- What a line does, and on what condition. -/
inductive LineCase (keep : Bool) (hash : Token) (l : Line) (st : State) :
    State × Except Error (List Token) → Prop where
  /-- The input ends before anything is stated. -/
  | ended : l.tokens.dropWhile Token.isGap = [] → l.ending = .eof →
      LineCase keep hash l st (st, .ok [])
  | broken {e} : l.tokens.dropWhile Token.isGap = [] → l.ending = .fault e →
      LineCase keep hash l st (st, .error e)
  | blank {name rest} : l.tokens.dropWhile Token.isGap = name :: rest → name.isLineEnd = true →
      LineCase keep hash l st (st, .ok (if st.active then lineBreak (some name) else []))
  /-- The rest of a line with an unknown name cannot be read. -/
  | unread {name rest e} : l.tokens.dropWhile Token.isGap = name :: rest →
      ¬name.isLineEnd = true → ofName? name.text = none →
      Line.split { l with tokens := rest } = .error e → LineCase keep hash l st (st, .error e)
  | kept {name rest body stop} : l.tokens.dropWhile Token.isGap = name :: rest →
      ¬name.isLineEnd = true → ofName? name.text = none →
      Line.split { l with tokens := rest } = .ok (body, stop) → (st.active && keep) = true →
      LineCase keep hash l st (st.record name,
        .ok (hash :: l.tokens.takeWhile Token.isGap ++ name :: body ++ stop.toList))
  | dropped {name rest body stop} : l.tokens.dropWhile Token.isGap = name :: rest →
      ¬name.isLineEnd = true → ofName? name.text = none →
      Line.split { l with tokens := rest } = .ok (body, stop) → ¬(st.active && keep) = true →
      LineCase keep hash l st (st, .ok (if st.active then lineBreak stop else []))
  | failed {name rest d after e} : l.tokens.dropWhile Token.isGap = name :: rest →
      ¬name.isLineEnd = true → ofName? name.text = some d →
      st.run d name { l with tokens := rest } = (after, .error e) →
      LineCase keep hash l st (after, .error e)
  | done {name rest d after stop} : l.tokens.dropWhile Token.isGap = name :: rest →
      ¬name.isLineEnd = true → ofName? name.text = some d →
      st.run d name { l with tokens := rest } = (after, .ok stop) →
      LineCase keep hash l st (if st.active || d.isConditional then after.record name else after,
        .ok (if st.active || after.active then lineBreak stop else []))

theorem execute_cases (keep : Bool) (hash : Token) (l : Line) (st : State) :
    LineCase keep hash l st (execute keep hash l st) := by
  unfold execute
  split
  · rename_i hd
    split
    · rename_i he
      exact .ended hd he
    · rename_i he
      exact .broken hd he
  · rename_i name rest hd
    split
    · rename_i hn
      exact .blank hd hn
    · rename_i hn
      split
      · rename_i ho
        simp only [otherLine]
        split
        · rename_i hs
          exact .unread hd hn ho hs
        · rename_i hs
          split
          · rename_i hk
            exact .kept hd hn ho hs hk
          · rename_i hk
            exact .dropped hd hn ho hs hk
      · rename_i ho
        split
        · rename_i hr
          exact .failed hd hn ho hr
        · rename_i hr
          exact .done hd hn ho hr

/-- A table changes with the definition or the removal of a macro. -/
inductive Changes (T T' : Table) : Prop where
  | define {l : Line} {stop : Option Token} :
      Definition.define T l = .ok (T', stop) → Changes T T'
  | undef {l : Line} {stop : Option Token} : Definition.undef T l = .ok (T', stop) → Changes T T'

namespace State

variable {st : State} {l : Line} {name : Token}

/-- A branch with a condition reads its line, then the condition, then the open groups. -/
theorem elseIf_eq (name : Token) (l : Line) (st : State) :
    st.elseIf name l = l.split >>= fun x =>
      (if st.groups.undecided then Condition.holds st.table name.pos x.1 else .ok false) >>=
        fun b => st.groups.elseIf b name.pos >>= fun groups =>
          .ok ({ st with groups }, x.2) := by
  unfold elseIf
  refine congrArg (l.split >>= ·) (funext fun x => ?_)
  obtain ⟨body, stop⟩ := x
  simp only
  split <;> rfl

theorem table_openGroup (check : Except Error (Bool × Option Token)) :
    (st.openGroup name l check).1.table = st.table := by
  unfold openGroup
  split
  · cases check <;> rfl
  · rfl

theorem table_orKeep {x : Except Error (State × Option Token)}
    (hx : ∀ {st' stop}, x = .ok (st', stop) → st'.table = st.table) :
    (st.orKeep x).1.table = st.table := by
  cases x with
  | error e => rfl
  | ok y => exact hx rfl

theorem table_changeTable {change : Except Error (Table × Option Token)}
    (hc : ∀ {T stop}, change = .ok (T, stop) → Changes st.table T) :
    (st.orKeep (st.changeTable l change)).1.table = st.table ∨
      Changes st.table (st.orKeep (st.changeTable l change)).1.table := by
  unfold changeTable
  split
  · cases change with
    | error e => exact .inl rfl
    | ok y => exact .inr (hc rfl)
  · cases l.finish <;> exact .inl rfl

/-- The directives of conditional groups leave the table as it is. -/
theorem table_run_of_isConditional {d : Directive} (hd : d.isConditional = true) :
    (st.run d name l).1.table = st.table := by
  cases d with
  | ifHolds | ifDefined | ifNotDefined => exact table_openGroup _
  | elseIf =>
      refine table_orKeep fun {st' stop} hx => ?_
      rw [elseIf_eq] at hx
      obtain ⟨x, -, hx⟩ := except_bind_eq_ok hx
      obtain ⟨cond, -, hx⟩ := except_bind_eq_ok hx
      obtain ⟨groups, -, hx⟩ := except_bind_eq_ok hx
      cases hx
      rfl
  | otherwise | endIf =>
      refine table_orKeep fun {st' stop} hx => ?_
      obtain ⟨stop, -, hx⟩ := except_bind_eq_ok hx
      obtain ⟨groups, -, hx⟩ := except_bind_eq_ok hx
      cases hx
      rfl
  | define | undef => cases hd

theorem table_of_run {d : Directive} {after : State} {r : Except Error (Option Token)}
    (h : st.run d name l = (after, r)) :
    after.table = st.table ∨ Changes st.table after.table := by
  obtain rfl : (st.run d name l).1 = after := by rw [h]
  clear h
  cases d with
  | ifHolds | ifDefined | ifNotDefined | elseIf | otherwise | endIf =>
      exact .inl (table_run_of_isConditional rfl)
  | define => exact table_changeTable .define
  | undef => exact table_changeTable .undef

end State

/-- A line leaves the table as it is, or it defines or removes a macro. -/
theorem table_execute (keep : Bool) (hash : Token) (l : Line) (st : State) :
    (execute keep hash l st).1.table = st.table ∨
      Changes st.table (execute keep hash l st).1.table := by
  have hcase := execute_cases keep hash l st
  generalize execute keep hash l st = r at hcase
  cases hcase with
  | ended | broken | blank | unread | kept | dropped => exact .inl rfl
  | failed _ _ _ hr => exact State.table_of_run hr
  | done _ _ _ hr =>
      have hrun := State.table_of_run hr
      simp only
      split <;> exact hrun

end Directive
end CPreprocessor

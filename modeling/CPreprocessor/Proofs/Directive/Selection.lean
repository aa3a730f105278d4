import CPreprocessor.Proofs.Directive.LineEnd

/-!
The flat execution of directives agrees with the recursive reading of the tree. What a line
does to the table and the groups is said once for each role; the rest is an induction on the
tree, with what follows it as an argument.
-/

namespace CPreprocessor

open Directive

/-- The outcome where the tokens end and the table is `T`. -/
def Outcome.ofEnd (T : Table) : End → Outcome
  | .eof => .ok ([], T)
  | .fault e => .error e

/-- Executes items one after the other from a state. -/
def exec : List Item → State → Outcome
  | [], st => .ofEnd st.table st.groups.atEnd
  | .text t :: is, st => (exec is st).after (if st.active then [t] else [])
  | .line l :: is, st =>
    match execute false l.hash ⟨l.tokens, .eof⟩ st with
    | (_, .error e) => .error e
    | (st, .ok out) => (exec is st).after out

namespace HashLine

variable {l : HashLine} {st : State}

theorem fromLineBreak_eq_dropWhile (t : Text) :
    fromLineBreak t = t.dropWhile fun b => !Byte.isLineBreak b := by
  induction t with
  | nil => rfl
  | cons b t ih =>
      rw [fromLineBreak, List.dropWhile_cons, ih]
      by_cases h : b = Byte.lineFeed ∨ b = Byte.carriageReturn
      · have hb : Byte.isLineBreak b = true := by simpa [Byte.isLineBreak] using h
        rw [if_pos h, hb]
        rfl
      · have hb : Byte.isLineBreak b = false := by simpa [Byte.isLineBreak] using h
        rw [if_neg h, hb]
        rfl

theorem breaks_eq (l : HashLine) : l.breaks = lineBreak (l.tokens.find? Token.isLineEnd) := by
  unfold breaks lineBreak
  cases l.tokens.find? Token.isLineEnd with
  | none => rfl
  | some t =>
      simp only [fromLineBreak_eq_dropWhile]
      cases t.text.dropWhile fun b => !Byte.isLineBreak b <;> rfl

/-- A line without a directive leaves its line break in active text. -/
theorem execute_of_heading?_eq_none (h : l.heading? = none) :
    execute false l.hash ⟨l.tokens, .eof⟩ st =
      (st, .ok (if st.active then l.breaks else [])) := by
  unfold heading? at h
  unfold execute
  have hf := Token.find?_dropWhile_isGap l.tokens
  rw [breaks_eq, ← hf]
  split at h
  · rename_i hd
    simp only [hd]
    cases st.active <;> rfl
  · rename_i name rest hd
    simp only [hd]
    split at h
    · rename_i hn
      rw [if_pos hn, List.find?_cons_of_pos hn]
    · rename_i hn
      have ho : ofName? name.text = none := Option.map_eq_none_iff.1 h
      rw [if_neg hn, ho, List.find?_cons_of_neg hn]
      simp only [otherLine, Line.split_eof, Bool.and_false, Bool.false_eq_true, if_false]

theorem execute_of_heading?_eq_some {d : Directive} {name : Token} {rest : List Token}
    (h : l.heading? = some (d, name, rest)) (keep : Bool) :
    execute keep l.hash ⟨l.tokens, .eof⟩ st =
      match st.run d name ⟨rest, .eof⟩ with
      | (after, .error e) => (after, .error e)
      | (after, .ok stop) =>
        (if st.active || d.isConditional then after.record name else after,
          .ok (if st.active || after.active then lineBreak stop else [])) := by
  unfold heading? at h
  unfold execute
  split at h
  · cases h
  · rename_i name' rest' hd
    split at h
    · cases h
    · rename_i hn
      obtain ⟨d', hd', he⟩ := Option.map_eq_some_iff.1 h
      cases he
      simp only [hd, hn, hd']
      rfl

/-- The line end of a line is the one after its directive. -/
theorem breaks_of_heading? {d : Directive} {name : Token} {rest : List Token}
    (h : l.heading? = some (d, name, rest)) :
    l.breaks = lineBreak (rest.find? Token.isLineEnd) := by
  unfold heading? at h
  have hf := Token.find?_dropWhile_isGap l.tokens
  rw [breaks_eq, ← hf]
  split at h
  · cases h
  · rename_i name' rest' hd
    split at h
    · cases h
    · rename_i hn
      obtain ⟨d', hd', he⟩ := Option.map_eq_some_iff.1 h
      cases he
      rw [hd, List.find?_cons_of_neg hn]

end HashLine

namespace Outcome

@[simp] theorem after_ok (out : List Token) (r : List Token × Table) :
    Outcome.after out (.ok r) = .ok (out ++ r.1, r.2) :=
  rfl

@[simp] theorem after_error (out : List Token) (e : Error) :
    Outcome.after out (.error e) = .error e :=
  rfl

@[simp] theorem after_nil (r : Outcome) : r.after [] = r := by
  cases r <;> rfl

@[simp] theorem after_after (a b : List Token) (r : Outcome) :
    (r.after b).after a = r.after (a ++ b) := by
  cases r with
  | error e => rfl
  | ok r => simp [after, Except.map]

theorem after_bind {α : Type} (x : Except Error α) (f : α → Outcome) (out : List Token) :
    Outcome.after out (x >>= f) = x >>= fun a => (f a).after out := by
  cases x <;> rfl

/-- Tokens in front of an outcome stay in front of what goes on from it. -/
theorem after_go (out : List Token) (r : Outcome) (k : Table → Outcome) :
    Outcome.after out (r >>= fun r => (k r.2).after r.1) =
      r.after out >>= fun r => (k r.2).after r.1 := by
  cases r with
  | error e => rfl
  | ok r => exact after_after _ _ _

theorem after_go_go (out : List Token) (r : Outcome) (f k : Table → Outcome) :
    Outcome.after out (r >>= fun r =>
        Outcome.after r.1 (f r.2 >>= fun r => (k r.2).after r.1)) =
      (r >>= fun r => (f r.2).after (out ++ r.1)) >>= fun r => (k r.2).after r.1 := by
  cases r with
  | error e => rfl
  | ok r => simp [after_go]

end Outcome

/-- A result whose second part is known. -/
theorem eq_map_of_snd {α : Type} {x : Except Error (α × Option Token)} {stop : Option Token}
    (h : ∀ a s, x = .ok (a, s) → s = stop) : x = (x.map Prod.fst).map (·, stop) := by
  cases x with
  | error e => rfl
  | ok r =>
      obtain ⟨a, s⟩ := r
      rw [h a s rfl]
      rfl

namespace HashLine

variable {l : HashLine} {d : Directive} {name : Token} {rest : List Token}

theorem exists_heading {l : HashLine} {r : Role} (h : l.role = r) (hr : r ≠ .plain) :
    ∃ d name rest, l.heading? = some (d, name, rest) ∧ d.role = r := by
  unfold role at h
  split at h
  · rename_i d name rest hh
    exact ⟨d, name, rest, hh, h⟩
  · exact absurd h.symm hr

theorem run_plain (h : l.heading? = some (d, name, rest)) (hr : d.role = .plain) (st : State) :
    st.run d name ⟨rest, .eof⟩ = st.orKeep (st.changeTable ⟨rest, .eof⟩
      ((l.change st.table).map (·, rest.find? Token.isLineEnd))) := by
  rw [change, h]
  cases d with
  | ifHolds | ifDefined | ifNotDefined | elseIf | otherwise | endIf => cases hr
  | define => rw [← eq_map_of_snd fun _ _ => Definition.stop_of_define]; rfl
  | undef => rw [← eq_map_of_snd fun _ _ => Definition.stop_of_undef]; rfl

theorem conditionCheck_eof (st : State) :
    st.conditionCheck name ⟨rest, .eof⟩ =
      (Condition.holds st.table name.pos (rest.takeWhile fun t => !t.isLineEnd)).map
        (·, rest.find? Token.isLineEnd) := by
  rw [State.conditionCheck, Line.split_eof]
  change (Condition.holds _ _ _ >>= _) = _
  cases Condition.holds st.table name.pos (rest.takeWhile fun t => !t.isLineEnd) <;> rfl

theorem run_opens (h : l.heading? = some (d, name, rest)) (hr : d.role = .opens) (st : State) :
    st.run d name ⟨rest, .eof⟩ = st.openGroup name ⟨rest, .eof⟩
      ((l.truth st.table).map (·, rest.find? Token.isLineEnd)) := by
  rw [truth, h]
  cases d with
  | define | undef | elseIf | otherwise | endIf => cases hr
  | ifHolds => rw [← conditionCheck_eof]; rfl
  | ifDefined =>
      change _ = State.openGroup name _ ((Except.map Prod.fst _).map _) st
      rw [← eq_map_of_snd fun _ _ => stop_of_definedCheck]
      rfl
  | ifNotDefined =>
      simp only [State.run]
      have ht : State.definedCheck name ⟨rest, .eof⟩ { table := st.table } =
          State.definedCheck name ⟨rest, .eof⟩ st := rfl
      rw [ht]
      cases hd : State.definedCheck name ⟨rest, .eof⟩ st with
      | error e => rfl
      | ok r =>
          obtain ⟨b, stop⟩ := r
          rw [stop_of_definedCheck hd]
          rfl

/-- The line end of a line that must be blank. -/
theorem takeLineEnd_eq (h : l.heading? = some (d, name, rest)) :
    (TokenStream.takeLineEnd (⟨rest, .eof⟩ : Line)).1 =
      l.blank.map fun _ => rest.find? Token.isLineEnd := by
  simp only [blank, h]
  cases ht : (TokenStream.takeLineEnd (⟨rest, .eof⟩ : Line)).1 with
  | error e => rfl
  | ok stop =>
      rw [Line.stop_of_takeLineEnd ht]
      rfl

end HashLine

section Step

variable {is : List Item} {T : Table} {gs : Groups} {ev : List Event}

section Heading

variable {l : HashLine} {d : Directive} {name : Token} {rest : List Token} {st after : State}

theorem exec_of_run_error {e : Error} (h : l.heading? = some (d, name, rest))
    (hr : st.run d name ⟨rest, .eof⟩ = (after, .error e)) :
    exec (.line l :: is) st = .error e := by
  rw [exec, HashLine.execute_of_heading?_eq_some h, hr]

/-- After an executed directive the items go on in the new state, whatever was recorded. -/
theorem exec_of_run_ok {k : Outcome} (h : l.heading? = some (d, name, rest))
    (hr : st.run d name ⟨rest, .eof⟩ = (after, .ok (rest.find? Token.isLineEnd)))
    (hk : ∀ ev, exec is ⟨after.table, after.groups, ev⟩ = k) :
    exec (.line l :: is) st = k.after (if st.active || after.active then l.breaks else []) := by
  rw [exec, HashLine.execute_of_heading?_eq_some h, hr, HashLine.breaks_of_heading? h]
  simp only
  congr 1
  split
  · exact hk _
  · exact hk after.events

end Heading

/-- A line outside the groups changes the table in active text. -/
theorem exec_plain (l : LineAs .plain) {k : Table → Outcome} (ha : gs.active = true)
    (hk : ∀ T ev, exec is ⟨T, gs, ev⟩ = k T) :
    exec (.line l.1 :: is) ⟨T, gs, ev⟩ = l.1.change T >>= fun T => (k T).after l.1.breaks := by
  obtain ⟨l, hl⟩ := l
  have hst : State.active ⟨T, gs, ev⟩ = true := ha
  cases hh : l.heading? with
  | none =>
      rw [exec, HashLine.execute_of_heading?_eq_none hh, HashLine.change, hh, hst]
      exact congrArg (Outcome.after _) (hk T ev)
  | some h =>
      obtain ⟨d, name, rest⟩ := h
      have hr : d.role = .plain := by simpa [HashLine.role, hh] using hl
      have hrun := HashLine.run_plain hh hr ⟨T, gs, ev⟩
      rw [State.changeTable, if_pos hst] at hrun
      cases hc : l.change T with
      | error e =>
          rw [hc] at hrun
          exact exec_of_run_error hh hrun
      | ok T' =>
          rw [hc] at hrun
          rw [exec_of_run_ok hh hrun (hk T'), hst]
          rfl

/-- In skipped text it changes nothing. -/
theorem exec_plain_skipped (l : LineAs .plain) {k : Outcome} (ha : gs.active = false)
    (hk : ∀ ev, exec is ⟨T, gs, ev⟩ = k) : exec (.line l.1 :: is) ⟨T, gs, ev⟩ = k := by
  obtain ⟨l, hl⟩ := l
  have hst : State.active ⟨T, gs, ev⟩ = false := ha
  cases hh : l.heading? with
  | none =>
      rw [exec, HashLine.execute_of_heading?_eq_none hh, hst]
      exact (Outcome.after_nil _).trans (hk ev)
  | some h =>
      obtain ⟨d, name, rest⟩ := h
      have hr : d.role = .plain := by simpa [HashLine.role, hh] using hl
      have hrun := HashLine.run_plain hh hr ⟨T, gs, ev⟩
      rw [State.changeTable, if_neg (by simp [hst]), Line.finish_eof] at hrun
      rw [exec_of_run_ok hh hrun hk, hst]
      exact Outcome.after_nil k

/-- A line that opens a group evaluates its condition in active text. -/
theorem exec_opens (l : LineAs .opens) {k : Bool → Outcome} (ha : gs.active = true)
    (hk : ∀ name pos b ev, exec is ⟨T, gs.push name pos b, ev⟩ = k b) :
    exec (.line l.1 :: is) ⟨T, gs, ev⟩ = l.1.truth T >>= fun b => (k b).after l.1.breaks := by
  obtain ⟨l, hl⟩ := l
  have hst : State.active ⟨T, gs, ev⟩ = true := ha
  obtain ⟨d, name, rest, hh, hr⟩ := HashLine.exists_heading hl (by decide)
  have hrun := HashLine.run_opens hh hr ⟨T, gs, ev⟩
  unfold State.openGroup at hrun
  rw [if_pos hst] at hrun
  cases hc : l.truth T with
  | error e =>
      rw [hc] at hrun
      exact exec_of_run_error hh hrun
  | ok b =>
      rw [hc] at hrun
      rw [exec_of_run_ok hh hrun (hk name.text name.pos b), hst]
      rfl

/-- In skipped text its condition is not looked at. -/
theorem exec_opens_skipped (l : LineAs .opens) {k : Outcome} (ha : gs.active = false)
    (hk : ∀ name pos ev, exec is ⟨T, gs.push name pos false, ev⟩ = k) :
    exec (.line l.1 :: is) ⟨T, gs, ev⟩ = k := by
  obtain ⟨l, hl⟩ := l
  have hst : State.active ⟨T, gs, ev⟩ = false := ha
  obtain ⟨d, name, rest, hh, hr⟩ := HashLine.exists_heading hl (by decide)
  have hrun := HashLine.run_opens hh hr ⟨T, gs, ev⟩
  unfold State.openGroup at hrun
  rw [if_neg (by simp [hst]), Line.finish_eof] at hrun
  have hpush : State.active ⟨T, gs.push name.text name.pos false, ev⟩ = false := by
    simp [State.active, Groups.push, Groups.active]
  rw [exec_of_run_ok hh hrun (hk name.text name.pos), hst, hpush]
  exact Outcome.after_nil k

theorem heading_elseIf {l : HashLine} (h : l.role = .elseIf) :
    ∃ name rest, l.heading? = some (.elseIf, name, rest) ∧
      ∀ T, l.truth T = Condition.holds T name.pos (rest.takeWhile fun t => !t.isLineEnd) := by
  obtain ⟨d, name, rest, hh, hr⟩ := HashLine.exists_heading h (by decide)
  have hd : d = .elseIf := by cases d <;> first | rfl | cases hr
  subst hd
  exact ⟨name, rest, hh, fun T => by rw [HashLine.truth, hh]⟩

variable {n : Text} {p : Pos}

/-- A further condition is evaluated while no branch was selected. -/
theorem exec_elseIf_waiting (l : LineAs .elseIf) {k : Bool → Outcome}
    (hk : ∀ b ev, exec is ⟨T, ⟨n, p, true, b, b, false⟩ :: gs, ev⟩ = k b) :
    exec (.line l.1 :: is) ⟨T, ⟨n, p, true, false, false, false⟩ :: gs, ev⟩ =
      l.1.truth T >>= fun b => (k b).after (if b then l.1.breaks else []) := by
  obtain ⟨l, hl⟩ := l
  obtain ⟨name, rest, hh, ht⟩ := heading_elseIf hl
  have hrun : State.run .elseIf name ⟨rest, .eof⟩
      ⟨T, ⟨n, p, true, false, false, false⟩ :: gs, ev⟩ =
      State.orKeep ⟨T, ⟨n, p, true, false, false, false⟩ :: gs, ev⟩
        ((l.truth T).map fun b =>
          (⟨T, ⟨n, p, true, b, b, false⟩ :: gs, ev⟩, rest.find? Token.isLineEnd)) := by
    rw [ht, State.run, State.elseIf, Line.split_eof]
    change State.orKeep _ (Condition.holds _ _ _ >>= _) = _
    cases Condition.holds T name.pos (rest.takeWhile fun t => !t.isLineEnd) <;> rfl
  cases hc : l.truth T with
  | error e =>
      rw [hc] at hrun
      exact exec_of_run_error hh hrun
  | ok b =>
      rw [hc] at hrun
      exact exec_of_run_ok hh hrun (hk b)

/-- Otherwise it is not looked at. -/
theorem exec_elseIf_decided (l : LineAs .elseIf) {outer taken active : Bool} {k : Outcome}
    (hu : (outer && !taken) = false)
    (hk : ∀ ev, exec is ⟨T, ⟨n, p, outer, taken, false, false⟩ :: gs, ev⟩ = k) :
    exec (.line l.1 :: is) ⟨T, ⟨n, p, outer, taken, active, false⟩ :: gs, ev⟩ =
      k.after (if active then l.1.breaks else []) := by
  obtain ⟨l, hl⟩ := l
  obtain ⟨name, rest, hh, ht⟩ := heading_elseIf hl
  have hrun : State.run .elseIf name ⟨rest, .eof⟩
      ⟨T, ⟨n, p, outer, taken, active, false⟩ :: gs, ev⟩ =
      (⟨T, ⟨n, p, outer, taken, false, false⟩ :: gs, ev⟩,
        .ok (rest.find? Token.isLineEnd)) := by
    rw [State.run, State.elseIf, Line.split_eof]
    have hun : Groups.undecided (⟨n, p, outer, taken, active, false⟩ :: gs) = false := by
      simp [Groups.undecided, hu]
    simp [bind, Except.bind, hun, Groups.elseIf, State.orKeep]
  rw [exec_of_run_ok hh hrun hk]
  simp [State.active, Groups.active]

theorem heading_otherwise {l : HashLine} (h : l.role = .otherwise) :
    ∃ name rest, l.heading? = some (.otherwise, name, rest) := by
  obtain ⟨d, name, rest, hh, hr⟩ := HashLine.exists_heading h (by decide)
  have hd : d = .otherwise := by cases d <;> first | rfl | cases hr
  exact ⟨name, rest, hd ▸ hh⟩

theorem heading_closes {l : HashLine} (h : l.role = .closes) :
    ∃ name rest, l.heading? = some (.endIf, name, rest) := by
  obtain ⟨d, name, rest, hh, hr⟩ := HashLine.exists_heading h (by decide)
  have hd : d = .endIf := by cases d <;> first | rfl | cases hr
  exact ⟨name, rest, hd ▸ hh⟩

/-- The last branch is selected if no other was. -/
theorem exec_otherwise (l : LineAs .otherwise) {taken active : Bool} {k : Outcome}
    (hk : ∀ ev, exec is ⟨T, ⟨n, p, true, true, !taken, true⟩ :: gs, ev⟩ = k) :
    exec (.line l.1 :: is) ⟨T, ⟨n, p, true, taken, active, false⟩ :: gs, ev⟩ =
      l.1.blank >>= fun _ => k.after (if active || !taken then l.1.breaks else []) := by
  obtain ⟨l, hl⟩ := l
  obtain ⟨name, rest, hh⟩ := heading_otherwise hl
  have hrun : State.run .otherwise name ⟨rest, .eof⟩
      ⟨T, ⟨n, p, true, taken, active, false⟩ :: gs, ev⟩ =
      State.orKeep ⟨T, ⟨n, p, true, taken, active, false⟩ :: gs, ev⟩
        (l.blank.map fun _ =>
          (⟨T, ⟨n, p, true, true, !taken, true⟩ :: gs, ev⟩,
            rest.find? Token.isLineEnd)) := by
    rw [State.run, State.closingEnd]
    simp only [Groups.examined, if_true, HashLine.takeLineEnd_eq hh]
    cases l.blank <;> rfl
  cases hc : l.blank with
  | error e =>
      rw [hc] at hrun
      exact exec_of_run_error hh hrun
  | ok _ =>
      rw [hc] at hrun
      exact exec_of_run_ok hh hrun hk

/-- In skipped text its line is not looked at. -/
theorem exec_otherwise_skipped (l : LineAs .otherwise) {k : Outcome}
    (hk : ∀ ev, exec is ⟨T, ⟨n, p, false, true, false, true⟩ :: gs, ev⟩ = k) :
    exec (.line l.1 :: is) ⟨T, ⟨n, p, false, false, false, false⟩ :: gs, ev⟩ = k := by
  obtain ⟨l, hl⟩ := l
  obtain ⟨name, rest, hh⟩ := heading_otherwise hl
  have hrun : State.run .otherwise name ⟨rest, .eof⟩
      ⟨T, ⟨n, p, false, false, false, false⟩ :: gs, ev⟩ =
      (⟨T, ⟨n, p, false, true, false, true⟩ :: gs, ev⟩,
        .ok (rest.find? Token.isLineEnd)) := by
    simp only [State.run, State.closingEnd, Groups.examined, Line.finish_eof]
    rfl
  rw [exec_of_run_ok hh hrun hk]
  exact Outcome.after_nil k

/-- The end of a group in active text. -/
theorem exec_closes (l : LineAs .closes) {taken active seen : Bool} {k : Outcome}
    (ha : gs.active = true) (hk : ∀ ev, exec is ⟨T, gs, ev⟩ = k) :
    exec (.line l.1 :: is) ⟨T, ⟨n, p, true, taken, active, seen⟩ :: gs, ev⟩ =
      l.1.blank >>= fun _ => k.after l.1.breaks := by
  obtain ⟨l, hl⟩ := l
  obtain ⟨name, rest, hh⟩ := heading_closes hl
  have hrun : State.run .endIf name ⟨rest, .eof⟩
      ⟨T, ⟨n, p, true, taken, active, seen⟩ :: gs, ev⟩ =
      State.orKeep ⟨T, ⟨n, p, true, taken, active, seen⟩ :: gs, ev⟩
        (l.blank.map fun _ => (⟨T, gs, ev⟩, rest.find? Token.isLineEnd)) := by
    rw [State.run, State.closingEnd]
    simp only [Groups.examined, if_true, HashLine.takeLineEnd_eq hh]
    cases l.blank <;> rfl
  cases hc : l.blank with
  | error e =>
      rw [hc] at hrun
      exact exec_of_run_error hh hrun
  | ok _ =>
      rw [hc] at hrun
      rw [exec_of_run_ok hh hrun hk, show State.active ⟨T, gs, ev⟩ = true from ha, Bool.or_true]
      rfl

theorem exec_closes_skipped (l : LineAs .closes) {taken seen : Bool} {k : Outcome}
    (ha : gs.active = false) (hk : ∀ ev, exec is ⟨T, gs, ev⟩ = k) :
    exec (.line l.1 :: is) ⟨T, ⟨n, p, false, taken, false, seen⟩ :: gs, ev⟩ = k := by
  obtain ⟨l, hl⟩ := l
  obtain ⟨name, rest, hh⟩ := heading_closes hl
  have hrun : State.run .endIf name ⟨rest, .eof⟩
      ⟨T, ⟨n, p, false, taken, false, seen⟩ :: gs, ev⟩ =
      (⟨T, gs, ev⟩, .ok (rest.find? Token.isLineEnd)) := by
    simp only [State.run, State.closingEnd, Groups.examined, Line.finish_eof]
    rfl
  rw [exec_of_run_ok hh hrun hk, show State.active ⟨T, gs, ev⟩ = false from ha]
  exact Outcome.after_nil k

end Step

mutual

/-- Skipped text leaves everything as it is. -/
theorem exec_code_skipped (c : Code) {is : List Item} {gs : Groups} {T : Table} {k : Outcome}
    (ha : gs.active = false) (hk : ∀ ev, exec is ⟨T, gs, ev⟩ = k) (ev : List Event) :
    exec (c.items ++ is) ⟨T, gs, ev⟩ = k := by
  match c with
  | .nil => exact hk ev
  | .text t rest =>
      have hst : State.active ⟨T, gs, ev⟩ = false := ha
      rw [Code.items, List.cons_append, exec, hst]
      exact (Outcome.after_nil _).trans (exec_code_skipped rest ha hk ev)
  | .line l rest =>
      rw [Code.items, List.cons_append]
      exact exec_plain_skipped l ha (exec_code_skipped rest ha hk)
  | .group l body more rest =>
      rw [Code.items, List.cons_append, List.append_assoc, List.append_assoc]
      refine exec_opens_skipped l ha fun n p ev => ?_
      have hpush : gs.push n p false = ⟨n, p, false, false, false, false⟩ :: gs := by
        simp [Groups.push, ha]
      rw [hpush]
      exact exec_code_skipped body rfl
        (exec_branches_skipped more ha (exec_code_skipped rest ha hk)) ev

theorem exec_branches_skipped (m : Branches) {is : List Item} {gs : Groups} {T : Table}
    {n : Text} {p : Pos} {k : Outcome} (ha : gs.active = false)
    (hk : ∀ ev, exec is ⟨T, gs, ev⟩ = k) (ev : List Event) :
    exec (m.items ++ is) ⟨T, ⟨n, p, false, false, false, false⟩ :: gs, ev⟩ = k := by
  match m with
  | .close l => exact exec_closes_skipped l ha hk
  | .otherwise l body last =>
      rw [Branches.items, List.cons_append, List.append_assoc]
      refine exec_otherwise_skipped l fun ev => ?_
      exact exec_code_skipped body rfl (fun ev => exec_closes_skipped last ha hk) ev
  | .elseIf l body more =>
      rw [Branches.items, List.cons_append, List.append_assoc]
      refine (exec_elseIf_decided l rfl fun ev => ?_).trans (Outcome.after_nil k)
      exact exec_code_skipped body rfl (exec_branches_skipped more ha hk) ev

end

/-- After a selected branch the others are passed over. -/
theorem exec_pass (m : Branches) {is : List Item} {gs : Groups} {T : Table} {n : Text}
    {p : Pos} {before : Bool} {k : Outcome} (ha : gs.active = true)
    (hk : ∀ ev, exec is ⟨T, gs, ev⟩ = k) (ev : List Event) :
    exec (m.items ++ is) ⟨T, ⟨n, p, true, true, before, false⟩ :: gs, ev⟩ =
      m.pass before >>= fun out => k.after out := by
  match m with
  | .close l =>
      rw [Branches.items, Branches.pass, List.singleton_append, exec_closes l ha hk]
      cases l.1.blank <;> rfl
  | .otherwise l body last =>
      have hbody : ∀ ev, exec (body.items ++ (.line last.1 :: is))
          ⟨T, ⟨n, p, true, true, false, true⟩ :: gs, ev⟩ =
          last.1.blank >>= fun _ => k.after last.1.breaks :=
        exec_code_skipped body rfl fun ev => exec_closes last ha hk
      rw [Branches.items, Branches.pass, List.cons_append, List.append_assoc,
        List.singleton_append, exec_otherwise l hbody]
      cases l.1.blank with
      | error e => rfl
      | ok _ =>
          cases last.1.blank with
          | error e => rfl
          | ok _ =>
              simp
  | .elseIf l body more =>
      have hmore : ∀ ev, exec (body.items ++ (more.items ++ is))
          ⟨T, ⟨n, p, true, true, false, false⟩ :: gs, ev⟩ =
          more.pass false >>= fun out => k.after out :=
        exec_code_skipped body rfl (exec_pass more ha hk)
      rw [Branches.items, Branches.pass, List.cons_append, List.append_assoc,
        exec_elseIf_decided l rfl hmore, Outcome.after_bind]
      cases more.pass false with
      | error e => rfl
      | ok out => exact Outcome.after_after _ _ _

theorem Branches.selected_go (m : Branches) (r : Outcome) (k : Table → Outcome) :
    (r >>= fun r => Outcome.after r.1 (m.pass true >>= fun out => (k r.2).after out)) =
      m.selected r >>= fun r => (k r.2).after r.1 := by
  cases r with
  | error e => rfl
  | ok r =>
      simp only [selected, except_ok_bind]
      cases m.pass true with
      | error e => rfl
      | ok out => exact Outcome.after_after _ _ _

mutual

/-- Active text gives what its tree gives, and the items after it go on from there. -/
theorem exec_code (c : Code) {is : List Item} {gs : Groups} {k : Table → Outcome}
    (ha : gs.active = true) (hk : ∀ T ev, exec is ⟨T, gs, ev⟩ = k T) (T : Table)
    (ev : List Event) :
    exec (c.items ++ is) ⟨T, gs, ev⟩ = c.run T >>= fun r => (k r.2).after r.1 := by
  match c with
  | .nil =>
      rw [Code.items, Code.run, List.nil_append, hk]
      exact (Outcome.after_nil _).symm
  | .text t rest =>
      have hst : State.active ⟨T, gs, ev⟩ = true := ha
      rw [Code.items, Code.run, List.cons_append, exec, hst, exec_code rest ha hk]
      exact Outcome.after_go _ _ _
  | .line l rest =>
      rw [Code.items, Code.run, List.cons_append, exec_plain l ha (exec_code rest ha hk)]
      cases l.1.change T with
      | error e => rfl
      | ok T => exact Outcome.after_go _ _ _
  | .group l body more rest =>
      have hrest := exec_code rest ha hk
      have hbranch : ∀ n p b ev, exec (body.items ++ (more.items ++ (rest.items ++ is)))
          ⟨T, gs.push n p b, ev⟩ =
          (if b then more.selected (body.run T) else more.choose T) >>= fun r =>
            Outcome.after r.1 (rest.run r.2 >>= fun r => (k r.2).after r.1) := by
        intro n p b ev
        rw [show gs.push n p b = ⟨n, p, true, b, b, false⟩ :: gs by simp [Groups.push, ha]]
        cases b with
        | true =>
            rw [exec_code body rfl (fun T => exec_pass more ha (hrest T)) T]
            exact Branches.selected_go more _ fun T => rest.run T >>= fun r => (k r.2).after r.1
        | false => exact exec_code_skipped body rfl (exec_choose more ha hrest T) ev
      rw [Code.items, Code.run, List.cons_append, List.append_assoc, List.append_assoc,
        exec_opens l ha hbranch]
      cases l.1.truth T with
      | error e => rfl
      | ok b =>
          cases b with
          | true => exact Outcome.after_go_go _ (more.selected (body.run T)) rest.run k
          | false => exact Outcome.after_go_go _ (more.choose T) rest.run k

theorem exec_choose (m : Branches) {is : List Item} {gs : Groups} {n : Text} {p : Pos}
    {k : Table → Outcome} (ha : gs.active = true) (hk : ∀ T ev, exec is ⟨T, gs, ev⟩ = k T)
    (T : Table) (ev : List Event) :
    exec (m.items ++ is) ⟨T, ⟨n, p, true, false, false, false⟩ :: gs, ev⟩ =
      m.choose T >>= fun r => (k r.2).after r.1 := by
  match m with
  | .close l =>
      rw [Branches.items, Branches.choose, List.singleton_append, exec_closes l ha (hk T)]
      cases l.1.blank <;> rfl
  | .otherwise l body last =>
      have hbody : ∀ ev, exec (body.items ++ (.line last.1 :: is))
          ⟨T, ⟨n, p, true, true, true, true⟩ :: gs, ev⟩ =
          body.run T >>= fun r =>
            Outcome.after r.1 (last.1.blank >>= fun _ => (k r.2).after last.1.breaks) :=
        exec_code body rfl (fun T ev => exec_closes last ha (hk T)) T
      rw [Branches.items, Branches.choose, List.cons_append, List.append_assoc,
        List.singleton_append, exec_otherwise l hbody]
      cases l.1.blank with
      | error e => rfl
      | ok _ =>
          cases body.run T with
          | error e => rfl
          | ok r => cases last.1.blank <;> simp
  | .elseIf l body more =>
      have hbranch : ∀ b ev, exec (body.items ++ (more.items ++ is))
          ⟨T, ⟨n, p, true, b, b, false⟩ :: gs, ev⟩ =
          (if b then more.selected (body.run T) else more.choose T) >>= fun r =>
            (k r.2).after r.1 := by
        intro b ev
        cases b with
        | true =>
            rw [exec_code body rfl (fun T => exec_pass more ha (hk T)) T]
            exact Branches.selected_go more _ _
        | false => exact exec_code_skipped body rfl (exec_choose more ha hk T) ev
      rw [Branches.items, Branches.choose, List.cons_append, List.append_assoc,
        exec_elseIf_waiting l hbranch]
      cases l.1.truth T with
      | error e => rfl
      | ok b =>
          cases b with
          | false => exact Outcome.after_nil _
          | true => exact Outcome.after_go _ _ _

end

end CPreprocessor

import CPreprocessor.Proofs.Directive.Failure
import CPreprocessor.Proofs.Directive.Grammar
import CPreprocessor.Proofs.Directive.Presented
import CPreprocessor.Proofs.Directive.Step

/-!
Conditional directives are nested as the grammar says, or the text fails. Whether a line is
examined or skipped, it moves the stack of open groups as its directive does; what it leaves
undone is only what depends on the conditions. So the groups that are open at a point are those
that the directives before it opened and did not close.
-/

namespace CPreprocessor

open Directive

namespace Directive

/-- The conditional directive with a given name. -/
def conditionalNamed? (name : Text) : Option Directive :=
  (ofName? name).filter isConditional

theorem conditionalNamed?_of_ofName? {name : Text} {d : Directive} (h : ofName? name = some d) :
    conditionalNamed? name = if d.isConditional then some d else none := by
  rw [conditionalNamed?, h]
  cases hd : d.isConditional <;> simp [Option.filter, hd]

/-- The conditional directives among recorded ones, in the order of their execution. -/
def recorded (es : List Event) : List Directive :=
  es.reverse.filterMap fun ev => conditionalNamed? ev.name

theorem recorded_cons (ev : Event) (es : List Event) :
    recorded (ev :: es) = recorded es ++ (conditionalNamed? ev.name).toList := by
  rw [recorded, List.reverse_cons, List.filterMap_append]
  cases h : conditionalNamed? ev.name <;> simp [recorded, h]

end Directive

/-- The conditional directive of a line. -/
def HashLine.conditional? (l : HashLine) : Option Directive :=
  (l.heading?.map Prod.fst).filter isConditional

def Item.conditional? : Item → Option Directive
  | .text _ => none
  | .line l => l.conditional?

/-- The conditional directives of a token sequence, in groups that are skipped as well. -/
def conditionals (ts : List Token) : List Directive :=
  (Item.ofTokens true ts).filterMap Item.conditional?

namespace Directive.State

/-- For each open group whether its `#else` was seen. -/
def flags (st : State) : List Bool :=
  st.groups.map Group.elseSeen

@[simp] theorem length_flags (st : State) : st.flags.length = st.groups.length :=
  List.length_map _

@[simp] theorem flags_record (name : Token) (st : State) : (st.record name).flags = st.flags :=
  rfl

section Run

variable {d : Directive} {name : Token} {l : Line} {st after : State} {stop : Option Token}
  {e : Error}

theorem of_openGroup {check : Except Error (Bool × Option Token)}
    (h : st.openGroup name l check = (after, .ok stop)) :
    after.events = st.events ∧ after.flags = false :: st.flags := by
  unfold openGroup at h
  split at h
  · split at h
    · cases h
    · cases h
      exact ⟨rfl, rfl⟩
  · obtain ⟨rfl, -⟩ := Prod.mk.inj h
    exact ⟨rfl, rfl⟩

theorem of_elseIf (h : st.elseIf name l = .ok (after, stop)) :
    after.events = st.events ∧ enter .elseIf st.flags = some after.flags := by
  rw [elseIf_eq] at h
  obtain ⟨x, -, h⟩ := except_bind_eq_ok h
  obtain ⟨b, -, h⟩ := except_bind_eq_ok h
  obtain ⟨gs, hg, h⟩ := except_bind_eq_ok h
  cases h
  refine ⟨rfl, ?_⟩
  obtain ⟨T, groups, ev⟩ := st
  cases groups with
  | nil => cases hg
  | cons g groups =>
      simp only [Groups.elseIf] at hg
      split at hg
      · cases hg
      · rename_i hs
        cases hg
        simp only [flags, List.map_cons, Bool.eq_false_iff.2 hs]
        rfl

theorem of_closing {f : Groups → Except Error Groups}
    (h :
      (do let stop ← st.closingEnd l; let groups ← f st.groups; .ok ({ st with groups }, stop) :
        Except Error (State × Option Token)) = .ok (after, stop)) :
    after.events = st.events ∧ f st.groups = .ok after.groups := by
  obtain ⟨stop', -, h⟩ := except_bind_eq_ok h
  obtain ⟨gs, hg, h⟩ := except_bind_eq_ok h
  cases h
  exact ⟨rfl, hg⟩

theorem of_changeTable {change : Except Error (Table × Option Token)}
    (h : st.changeTable l change = .ok (after, stop)) :
    after.events = st.events ∧ after.groups = st.groups := by
  unfold changeTable at h
  split at h
  · obtain ⟨⟨table, stop'⟩, -, h⟩ := except_map_eq_ok h
    cases h
    exact ⟨rfl, rfl⟩
  · obtain ⟨stop', -, h⟩ := except_map_eq_ok h
    cases h
    exact ⟨rfl, rfl⟩

/-- A directive that is executed moves the open groups as the grammar has it. -/
theorem enter_of_run (h : st.run d name l = (after, .ok stop)) :
    after.events = st.events ∧
      if d.isConditional then enter d st.flags = some after.flags
        else after.groups = st.groups := by
  cases d with
  | ifHolds | ifDefined | ifNotDefined =>
      obtain ⟨he, hf⟩ := of_openGroup h
      exact ⟨he, by rw [hf]; rfl⟩
  | elseIf => exact of_elseIf (HashLine.eq_ok_of_orKeep h)
  | otherwise =>
      obtain ⟨he, hg⟩ := of_closing (f := Groups.otherwise name.pos)
        (HashLine.eq_ok_of_orKeep h)
      refine ⟨he, ?_⟩
      cases hst : st.groups with
      | nil =>
          rw [hst] at hg
          cases hg
      | cons g gs =>
          rw [hst] at hg
          simp only [Groups.otherwise] at hg
          split at hg
          · cases hg
          · rename_i hs
            have hg := Except.ok.inj hg
            simp only [flags, hst, ← hg, List.map_cons, Bool.eq_false_iff.2 hs]
            rfl
  | endIf =>
      obtain ⟨he, hg⟩ := of_closing (f := Groups.pop name.pos) (HashLine.eq_ok_of_orKeep h)
      refine ⟨he, ?_⟩
      cases hst : st.groups with
      | nil =>
          rw [hst] at hg
          cases hg
      | cons g gs =>
          rw [hst] at hg
          have hg : gs = after.groups := Except.ok.inj hg
          simp only [flags, hst, ← hg]
          rfl
  | define | undef => exact of_changeTable (HashLine.eq_ok_of_orKeep h)

theorem enterAll_of_run (ho : ofName? name.text = some d)
    (h : st.run d name l = (after, .ok stop)) : after.events = st.events ∧
      enterAll (conditionalNamed? name.text).toList st.flags = some after.flags := by
  obtain ⟨hev, hr⟩ := enter_of_run h
  refine ⟨hev, ?_⟩
  rw [conditionalNamed?_of_ofName? ho]
  split at hr
  · rename_i hd
    rw [if_pos hd, Option.toList_some, enterAll, hr]
    rfl
  · rename_i hd
    rw [if_neg hd, flags, flags, hr]
    rfl

/-- A nesting error comes from the open groups alone: the line was read to its end, the
directive is out of place, and nothing has changed. -/
structure Misplaced (d : Directive) (l : Line) (st after : State) : Prop where
  conditional : d.isConditional = true
  enter_eq : enter d st.flags = none
  whole : ¬l.Broken
  unchanged : after = st

theorem of_orKeep_error {x : Except Error (State × Option Token)}
    (h : st.orKeep x = (after, .error e)) : after = st ∧ x = .error e := by
  cases x with
  | error f =>
      cases h
      exact ⟨rfl, rfl⟩
  | ok y => cases h

theorem misplaced_elseIf (hl : l.EndAvoids .nesting) (h : st.elseIf name l = .error e)
    (hk : e.kind = .nesting) : enter .elseIf st.flags = none ∧ ¬l.Broken := by
  rw [elseIf_eq] at h
  obtain ⟨x, hs, h⟩ := hl.split.exists_ok h hk
  have hcond : Avoids .nesting (if st.groups.undecided then
      Condition.holds st.table name.pos x.1 else .ok false) := by
    split
    · exact Condition.avoids_holds _ _ _
    · exact .ok _
  obtain ⟨b, -, h⟩ := hcond.exists_ok h hk
  refine ⟨?_, fun hb => ?_⟩
  · obtain ⟨T, groups, ev⟩ := st
    cases groups with
    | nil => rfl
    | cons g groups =>
        cases hg : g.elseSeen with
        | true =>
            simp only [flags, List.map_cons, hg]
            rfl
        | false =>
            simp only [Groups.elseIf, hg] at h
            cases h
  · have := hb.split
    rw [hs] at this
    cases this

theorem misplaced_closing (hl : l.EndAvoids .nesting) {f : Groups → Except Error Groups}
    (h :
      (do let stop ← st.closingEnd l; let groups ← f st.groups; .ok ({ st with groups }, stop) :
        Except Error (State × Option Token)) = .error e) (hk : e.kind = .nesting) :
    f st.groups = .error e ∧ ¬l.Broken := by
  obtain ⟨stop, hs, h⟩ := (avoids_closingEnd hl st).exists_ok h hk
  refine ⟨?_, fun hb => ?_⟩
  · cases hf : f st.groups with
    | error e' =>
        rw [hf] at h
        cases h
        rfl
    | ok gs =>
        rw [hf] at h
        cases h
  · have := hb.closingEnd st
    rw [hs] at this
    cases this

theorem misplaced_of_run (hl : l.EndAvoids .nesting) (h : st.run d name l = (after, .error e))
    (hk : e.kind = .nesting) : Misplaced d l st after := by
  have hopen {check : Except Error (Bool × Option Token)} (hc : Avoids .nesting check)
      (h : st.openGroup name l check = (after, .error e)) : False := by
    have := avoids_openGroup hl name hc st
    rw [h] at this
    exact this e rfl hk
  have hchange {change : Except Error (Table × Option Token)} (hc : Avoids .nesting change)
      (h : st.orKeep (st.changeTable l change) = (after, .error e)) : False :=
    avoids_changeTable hl hc st e (of_orKeep_error h).2 hk
  cases d with
  | ifHolds => exact (hopen (avoids_conditionCheck hl name st) h).elim
  | ifDefined => exact (hopen (avoids_definedCheck hl name st) h).elim
  | ifNotDefined => exact (hopen ((avoids_definedCheck hl name st).map _) h).elim
  | elseIf =>
      obtain ⟨ha, he⟩ := of_orKeep_error h
      obtain ⟨hn, hb⟩ := misplaced_elseIf hl he hk
      exact ⟨rfl, hn, hb, ha⟩
  | otherwise =>
      obtain ⟨ha, he⟩ := of_orKeep_error h
      obtain ⟨hg, hb⟩ := misplaced_closing (f := Groups.otherwise name.pos) hl he hk
      refine ⟨rfl, ?_, hb, ha⟩
      cases hst : st.groups with
      | nil => simp [flags, hst, enter, role]
      | cons g gs =>
          rw [hst] at hg
          simp only [Groups.otherwise] at hg
          split at hg
          · rename_i hs
            simp [flags, hst, enter, role, hs]
          · cases hg
  | endIf =>
      obtain ⟨ha, he⟩ := of_orKeep_error h
      obtain ⟨hg, hb⟩ := misplaced_closing (f := Groups.pop name.pos) hl he hk
      refine ⟨rfl, ?_, hb, ha⟩
      cases hst : st.groups with
      | nil => simp [flags, hst, enter, role]
      | cons g gs =>
          rw [hst] at hg
          cases hg
  | define => exact (hchange (Definition.avoids_define hl st.table) h).elim
  | undef => exact (hchange (Definition.avoids_undef hl st.table) h).elim

end Run

/-- The open groups and the record of a state that the conditional directives `ds` have led
to. -/
structure Agrees (ds : List Directive) (st : State) : Prop where
  flags_eq : enterAll ds [] = some st.flags
  recorded_eq : recorded st.events = ds
  depth_eq {ev : Event} {es : List Event} : ev :: es <:+ st.events →
    ev.depth = openGroups (recorded (ev :: es))

namespace Agrees

variable {ds : List Directive} {st : State}

theorem length_groups (h : Agrees ds st) : st.groups.length = openGroups ds := by
  rw [← length_flags, length_of_enterAll h.flags_eq]
  rfl

/-- What is recorded agrees with what was done. -/
theorem record (h : Agrees ds st) {after : State} {name : Token}
    (hev : after.events = st.events)
    (hf : enterAll (conditionalNamed? name.text).toList st.flags = some after.flags) :
    Agrees (ds ++ (conditionalNamed? name.text).toList) (after.record name) := by
  have hflags : enterAll (ds ++ (conditionalNamed? name.text).toList) [] = some after.flags := by
    rw [enterAll_append, h.flags_eq, Option.bind_some, hf]
  have hrecorded : recorded (after.record name).events =
      ds ++ (conditionalNamed? name.text).toList := by
    simp only [State.record, recorded_cons, hev, h.recorded_eq]
  refine ⟨hflags, hrecorded, fun {ev es} hs => ?_⟩
  rcases List.suffix_cons_iff.1 hs with heq | hs
  · cases heq
    change after.groups.length = openGroups (recorded (after.record name).events)
    rw [hrecorded, ← length_flags, length_of_enterAll hflags]
    rfl
  · rw [hev] at hs
    exact h.depth_eq hs

theorem of_eq (h : Agrees ds st) {after : State} (hf : after.flags = st.flags)
    (hev : after.events = st.events) : Agrees ds after := by
  refine ⟨?_, ?_, fun hs => h.depth_eq (hev ▸ hs)⟩
  · rw [hf, h.flags_eq]
  · rw [hev, h.recorded_eq]

end Agrees
end Directive.State

theorem HashLine.conditional?_of_heading {l : HashLine} {name : Token} {rest : List Token}
    (h : l.tokens.dropWhile Token.isGap = name :: rest)
    (hn : ¬name.isLineEnd = true) : l.conditional? = conditionalNamed? name.text := by
  rw [conditional?, heading?, h]
  simp only [if_neg hn, Option.map_map]
  cases ho : ofName? name.text <;> simp [conditionalNamed?, ho]

namespace Directive

variable {keep : Bool} {hash : Token} {l : Line} {st st' : State}

/-- A line that is executed leaves groups and a record that agree with its directive. -/
theorem agrees_of_execute {ds : List Directive} (h : st.Agrees ds) {out : List Token}
    (hx : execute keep hash l st = (st', .ok out)) :
    st'.Agrees (ds ++ (HashLine.conditional? ⟨hash, l.tokens⟩).toList) := by
  -- A line without a conditional directive leaves the open groups and their directives alone.
  have hnone (hc : HashLine.conditional? ⟨hash, l.tokens⟩ = none) :
      st.Agrees (ds ++ (HashLine.conditional? ⟨hash, l.tokens⟩).toList) := by
    rwa [hc, Option.toList_none, List.append_nil]
  have hcase := execute_cases keep hash l st
  rw [hx] at hcase
  cases hcase with
  | ended hd _ =>
      refine hnone ?_
      simp only [HashLine.conditional?, HashLine.heading?, hd]
      rfl
  | blank hd hn =>
      refine hnone ?_
      simp only [HashLine.conditional?, HashLine.heading?, hd, if_pos hn]
      rfl
  | kept hd hn ho _ _ =>
      rw [HashLine.conditional?_of_heading hd hn]
      exact h.record rfl (by rw [conditionalNamed?, ho]; rfl)
  | dropped hd hn ho _ _ =>
      refine hnone ?_
      rw [HashLine.conditional?_of_heading hd hn, conditionalNamed?, ho]
      rfl
  | @done name rest d after stop hd hn ho hr =>
      obtain ⟨hev, hf⟩ := State.enterAll_of_run ho hr
      rw [HashLine.conditional?_of_heading hd hn]
      split
      · exact h.record hev hf
      · rename_i hd
        have hd : ¬d.isConditional = true := by simp_all
        rw [conditionalNamed?_of_ofName? ho, if_neg hd] at hf ⊢
        rw [Option.toList_none, List.append_nil]
        exact h.of_eq (Option.some.inj hf).symm hev

/-- A line with a nesting error was read to its end and has changed nothing. -/
theorem misplaced_of_execute (hl : l.EndAvoids .nesting) {e : Error}
    (hx : execute keep hash l st = (st', .error e)) (hk : e.kind = .nesting) :
    (∃ d, HashLine.conditional? ⟨hash, l.tokens⟩ = some d ∧ enter d st.flags = none) ∧
      ¬l.Broken ∧ st' = st := by
  have hrest {rest : List Token} : Line.EndAvoids .nesting { l with tokens := rest } := hl
  have hcase := execute_cases keep hash l st
  rw [hx] at hcase
  cases hcase with
  | broken _ he => exact absurd hk (hl e he)
  | unread _ _ _ hs => exact absurd hk (hrest.split e hs)
  | @failed name rest d after e hd hn ho hr =>
      have hsuffix : rest <:+ l.tokens :=
        (List.suffix_cons name rest).trans (hd ▸ List.dropWhile_suffix Token.isGap)
      obtain ⟨hc, henter, hb, ha⟩ := State.misplaced_of_run hrest hr hk
      refine ⟨⟨d, ?_, henter⟩, fun h => hb (h.of_suffix hsuffix), ha⟩
      rw [HashLine.conditional?_of_heading hd hn, conditionalNamed?_of_ofName? ho, if_pos hc]

end Directive
end CPreprocessor

import CPreprocessor.Proofs.Directive.Nesting

/-!
The grammar of conditional directives. A word is a list of groups, each opened by one of three
directives and closed by `#endif`, with branches in between of which only the last may be
`#else`. The words are those that a stack of open groups takes in from empty to empty, where
the stack remembers of each group whether its `#else` was seen.
-/

namespace CPreprocessor
namespace Directive

mutual

/-- A list of groups. -/
inductive WellNested : List Directive → Prop where
  | nil : WellNested []
  | group {d body more rest} : d.role = .opens → WellNested body → Continued more →
      WellNested rest → WellNested (d :: (body ++ (more ++ rest)))

/-- What follows the first branch of a group. -/
inductive Continued : List Directive → Prop where
  | close : Continued [endIf]
  | otherwise {body} : WellNested body → Continued (otherwise :: (body ++ [endIf]))
  | elseIf {body more} : WellNested body → Continued more → Continued (elseIf :: (body ++ more))

end

/-- The open groups after a directive, innermost first: for each whether its `#else` was seen.
A directive that is out of place has no open groups after it. -/
def enter (d : Directive) (st : List Bool) : Option (List Bool) :=
  match d.role, st with
  | .opens, st => some (false :: st)
  | .elseIf, false :: st => some (false :: st)
  | .otherwise, false :: st => some (true :: st)
  | .closes, _ :: st => some st
  | _, _ => none

def enterAll : List Directive → List Bool → Option (List Bool)
  | [], st => some st
  | d :: ds, st => (enter d st).bind (enterAll ds)

theorem enter_opens {d : Directive} (h : d.role = .opens) (st : List Bool) :
    enter d st = some (false :: st) := by
  simp only [enter, h]

theorem enterAll_append (ds es : List Directive) (st : List Bool) :
    enterAll (ds ++ es) st = (enterAll ds st).bind (enterAll es) := by
  induction ds generalizing st with
  | nil => rfl
  | cons d ds ih =>
      rw [List.cons_append, enterAll, enterAll]
      cases enter d st with
      | none => rfl
      | some st' => exact ih st'

/-- A word leaves the open groups around it alone. -/
theorem WellNested.enterAll_eq {ds : List Directive} (h : WellNested ds) (st : List Bool) :
    enterAll ds st = some st := by
  -- What follows the first branch of a group closes the group.
  refine @WellNested.rec (fun ds _ => ∀ st, enterAll ds st = some st)
    (fun ds _ => ∀ st, enterAll ds (false :: st) = some st) ?_ ?_ ?_ ?_ ?_ ds h st
  · intro st
    rfl
  · intro d body more rest hd _ _ _ hbody hmore hrest st
    rw [enterAll, enter_opens hd, Option.bind_some, enterAll_append, hbody, Option.bind_some,
      enterAll_append, hmore, Option.bind_some, hrest]
  · intro st
    rfl
  · intro body _ hbody st
    rw [enterAll]
    change enterAll _ (true :: st) = _
    rw [enterAll_append, hbody]
    rfl
  · intro body more _ _ hbody hmore st
    rw [enterAll]
    change enterAll _ (false :: st) = _
    rw [enterAll_append, hbody, Option.bind_some, hmore]

/-- The rest of a word in which the given groups are open. -/
inductive Closing : List Bool → List Directive → Prop where
  | nil {ds} : WellNested ds → Closing [] ds
  | branch {st body more rest} : WellNested body → Continued more → Closing st rest →
      Closing (false :: st) (body ++ (more ++ rest))
  | last {st body rest} : WellNested body → Closing st rest →
      Closing (true :: st) (body ++ endIf :: rest)

namespace Closing

variable {st : List Bool} {body more rest : List Directive}

theorem group {d : Directive} (hd : d.role = .opens) (hbody : WellNested body)
    (hmore : Continued more) (h : Closing st rest) :
    Closing st (d :: (body ++ (more ++ rest))) := by
  cases h with
  | nil hrest => exact .nil (.group hd hbody hmore hrest)
  | branch hrest hmore' h =>
      have := Closing.branch (.group hd hbody hmore hrest) hmore' h
      simpa using this
  | last hrest h =>
      have := Closing.last (.group hd hbody hmore hrest) h
      simpa using this

theorem elseIf (h : Closing (false :: st) rest) : Closing (false :: st) (.elseIf :: rest) := by
  cases h with
  | branch hbody hmore h =>
      have := Closing.branch .nil (.elseIf hbody hmore) h
      simpa using this

theorem otherwise (h : Closing (true :: st) rest) :
    Closing (false :: st) (.otherwise :: rest) := by
  cases h with
  | last hbody h =>
      have := Closing.branch .nil (.otherwise hbody) h
      simpa using this

theorem endIf (h : Closing st rest) (seen : Bool) : Closing (seen :: st) (.endIf :: rest) := by
  cases seen with
  | false => exact .branch .nil .close h
  | true => exact .last .nil h

end Closing

theorem closing_of_enterAll {ds : List Directive} {st : List Bool}
    (h : enterAll ds st = some []) : Closing st ds := by
  induction ds generalizing st with
  | nil =>
      cases h
      exact .nil .nil
  | cons d ds ih =>
      rw [enterAll, Option.bind_eq_some_iff] at h
      obtain ⟨st', hd, h⟩ := h
      have hc := ih h
      cases d with
      | ifHolds | ifDefined | ifNotDefined =>
          cases hd
          cases hc with
          | branch hbody hmore hrest => exact hrest.group rfl hbody hmore
      | define | undef => cases hd
      | elseIf =>
          match st with
          | false :: st =>
              cases hd
              exact hc.elseIf
      | otherwise =>
          match st with
          | false :: st =>
              cases hd
              exact hc.otherwise
      | endIf =>
          match st with
          | seen :: st =>
              cases hd
              exact hc.endIf seen

theorem enterAll_eq_some_nil_iff {ds : List Directive} :
    enterAll ds [] = some [] ↔ WellNested ds := by
  refine ⟨fun h => ?_, fun h => h.enterAll_eq []⟩
  cases closing_of_enterAll h with
  | nil h => exact h

/-- The number of open groups after a directive where there are `n` before it. -/
def openAfter (n : Nat) (d : Directive) : Nat :=
  match d.role with
  | .opens => n + 1
  | .closes => n - 1
  | .plain | .elseIf | .otherwise => n

/-- The number of groups that the directives open and do not close. -/
def openGroups (ds : List Directive) : Nat :=
  ds.foldl openAfter 0

theorem openGroups_append (ds es : List Directive) :
    openGroups (ds ++ es) = es.foldl openAfter (openGroups ds) :=
  List.foldl_append

theorem length_of_enter {d : Directive} {st st' : List Bool} (h : enter d st = some st') :
    st'.length = openAfter st.length d := by
  unfold enter at h
  split at h <;> cases h <;> rename_i hd <;> simp [openAfter, hd]

theorem length_of_enterAll {ds : List Directive} {st st' : List Bool}
    (h : enterAll ds st = some st') : st'.length = ds.foldl openAfter st.length := by
  induction ds generalizing st with
  | nil =>
      cases h
      rfl
  | cons d ds ih =>
      obtain ⟨st₁, hd, h⟩ := Option.bind_eq_some_iff.1 h
      rw [List.foldl_cons, ← length_of_enter hd, ih h]

/-- A directive that is out of place opens nothing and closes nothing. -/
theorem openAfter_of_enter_eq_none {d : Directive} {st : List Bool} (h : enter d st = none) :
    openAfter st.length d = st.length := by
  unfold openAfter
  split
  · rename_i hd
    rw [enter_opens hd] at h
    cases h
  · rename_i hd
    cases st with
    | nil => rfl
    | cons seen st =>
        simp only [enter, hd] at h
        cases h
  · rfl
  · rfl
  · rfl

end Directive
end CPreprocessor

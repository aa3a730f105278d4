import CPreprocessor.Proofs.Condition.Placement
import CPreprocessor.Proofs.Directive.Selection

/-!
Directive lines without places. What a line does to the macros and the groups, and whether it
fails and how, depends neither on where it stands nor on the white space that ends it. That
white space is what the line leaves in the text, alone or behind the line itself.
-/

namespace CPreprocessor

open Directive

namespace Token

/-- The token with no place, and with no text if it ends a line. -/
def bare (t : Token) : Token :=
  if t.isLineEnd then { kind := .whitespace, text := [], newline := true } else t.unplaced

theorem bare_of_not_isLineEnd {t : Token} (h : t.isLineEnd = false) : t.bare = t.unplaced := by
  rw [bare, h]
  rfl

@[simp] theorem kind_bare (t : Token) : t.bare.kind = t.kind := by
  unfold bare
  split
  · rename_i h
    simp only [isLineEnd, isSpace, Bool.and_eq_true, beq_iff_eq] at h
    exact h.1.symm
  · rfl

@[simp] theorem isSpace_bare (t : Token) : t.bare.isSpace = t.isSpace := by
  rw [isSpace, kind_bare, isSpace]

@[simp] theorem isLineEnd_bare (t : Token) : t.bare.isLineEnd = t.isLineEnd := by
  unfold bare
  split
  · rename_i h
    exact h.symm
  · rfl

@[simp] theorem isGap_bare (t : Token) : t.bare.isGap = t.isGap := by
  unfold bare
  split
  · rename_i h
    simp only [isLineEnd, Bool.and_eq_true] at h
    simp [isGap, h.2]
  · rfl

@[simp] theorem isPunct_bare (s : Text) (t : Token) : t.bare.isPunct s = t.isPunct s := by
  unfold bare
  split
  · rename_i h
    simp only [isLineEnd, Bool.and_eq_true] at h
    rw [not_isPunct_of_isSpace h.1]
    rfl
  · rfl

theorem text_bare {t : Token} (h : t.isSpace = false) : t.bare.text = t.text := by
  rw [bare_of_not_isLineEnd (by simp [isLineEnd, h]), text_unplaced]

theorem takeWhile_bare (ts : List Token) :
    (ts.map bare).takeWhile (fun t => !t.isLineEnd) =
      (ts.takeWhile fun t => !t.isLineEnd).map unplaced := by
  induction ts with
  | nil => rfl
  | cons t ts ih =>
      cases h : t.isLineEnd with
      | true => simp [h]
      | false => simp [h, ih, bare_of_not_isLineEnd h]

theorem dropWhile_isGap_bare (ts : List Token) :
    (ts.map bare).dropWhile isGap = (ts.dropWhile isGap).map bare := by
  rw [List.dropWhile_map]
  congr 2
  funext t
  exact isGap_bare t

theorem find?_bare (ts : List Token) :
    (ts.map bare).find? isLineEnd = (ts.find? isLineEnd).map bare := by
  rw [List.find?_map]
  congr 2
  funext t
  exact isLineEnd_bare t

end Token

namespace Line

variable {e e' : End}

/-- Whether a line is blank does not depend on how it ends. -/
theorem takeLineEnd_bare (he : e.Akin e') (ts : List Token) :
    verdict (TokenStream.takeLineEnd (⟨ts.map Token.bare, e'⟩ : Line)).1 =
      (verdict (TokenStream.takeLineEnd (⟨ts, e⟩ : Line)).1).map (Option.map Token.bare) := by
  induction ts with
  | nil =>
      rw [List.map_nil, TokenStream.takeLineEnd, TokenStream.takeLineEnd]
      cases e with
      | eof =>
          cases he.of_eof
          rfl
      | fault f =>
          obtain ⟨f', rfl, hk⟩ := he.of_fault
          exact congrArg Except.error hk.symm
  | cons t ts ih =>
      rw [List.map_cons, TokenStream.takeLineEnd, TokenStream.takeLineEnd]
      simp only [TokenStream.next, next, Token.isLineEnd_bare, Token.isSpace_bare]
      split
      · rfl
      · split
        · exact ih
        · rfl

theorem split_bare (he : e.Akin e') (ts : List Token) :
    verdict (split ⟨ts.map Token.bare, e'⟩) =
      (verdict (split ⟨ts, e⟩)).map fun x => (x.1.map Token.unplaced, x.2.map Token.bare) := by
  simp only [split, Token.takeWhile_bare, Token.find?_bare]
  cases ts.find? Token.isLineEnd with
  | some t => rfl
  | none =>
      cases e with
      | eof =>
          cases he.of_eof
          rfl
      | fault f =>
          obtain ⟨f', rfl, hk⟩ := he.of_fault
          exact congrArg Except.error hk.symm

theorem finish_bare (he : e.Akin e') (ts : List Token) :
    verdict (finish ⟨ts.map Token.bare, e'⟩) =
      (verdict (finish ⟨ts, e⟩)).map (Option.map Token.bare) := by
  rw [finish, finish, verdict_map, verdict_map, split_bare he, except_map_map, except_map_map]
  rfl

/-- Gaps are taken off the front of a line; an error behind them is met. -/
theorem takeSpace_gaps (ts : List Token) (e : End) :
    TokenStream.takeSpace false (⟨ts, e⟩ : Line) =
      (⟨ts.takeWhile Token.isGap, if ts.dropWhile Token.isGap = [] then e.error? else none⟩,
        ⟨ts.dropWhile Token.isGap, e⟩) := by
  induction ts with
  | nil =>
      rw [TokenStream.takeSpace]
      rfl
  | cons t ts ih =>
      rw [TokenStream.takeSpace]
      simp only [TokenStream.next, next]
      by_cases ht : t.isGap = true
      · have ht' : (t.isSpace && (false || !t.newline)) = true := by simpa [Token.isGap] using ht
        rw [if_pos ht', ih, List.takeWhile_cons_of_pos ht, List.dropWhile_cons_of_pos ht]
        rfl
      · have ht' : ¬(t.isSpace && (false || !t.newline)) = true := by
          simpa [Token.isGap] using ht
        rw [if_neg ht', List.takeWhile_cons_of_neg ht, List.dropWhile_cons_of_neg ht]
        rfl

end Line

namespace Definition

variable {e e' : End}

theorem verdict_readName (ts : List Token) (e : End) : verdict (readName ⟨ts, e⟩) =
    match ts.dropWhile Token.isGap with
    | [] => .error ((e.error?.map Error.kind).getD .directive)
    | t :: rest =>
      if t.kind = .identifier ∧ ¬Vocabulary.isReserved t.text = true then .ok (t, ⟨rest, e⟩)
      else .error .directive := by
  simp only [readName, Line.takeSpace_gaps]
  cases ts.dropWhile Token.isGap with
  | nil => cases e <;> rfl
  | cons t rest =>
      simp only [TokenStream.takeName, TokenStream.next, Line.next, List.cons_ne_nil, if_false]
      by_cases hk : t.kind = .identifier
      · rw [if_pos hk]
        by_cases hr : Vocabulary.isReserved t.text = true
        · simp only [if_pos hr]
          rw [if_neg (fun h => h.2 hr)]
          rfl
        · simp only [if_neg hr]
          rw [if_pos ⟨hk, hr⟩]
          rfl
      · rw [if_neg hk, if_neg (fun h => hk h.1)]
        rfl

theorem params_bare (he : e.Akin e') (name name' : Token) (st : Expecting) (ts : List Token) :
    verdict (params name' e' st (ts.map Token.bare)) =
      (verdict (params name e st ts)).map fun x => (x.1, x.2.map Token.bare) := by
  induction ts generalizing st with
  | nil =>
      rw [List.map_nil, params.eq_def, params.eq_def]
      cases e with
      | eof =>
          cases he.of_eof
          rfl
      | fault f =>
          obtain ⟨f', rfl, hk⟩ := he.of_fault
          exact congrArg Except.error hk.symm
  | cons t ts ih =>
      rw [List.map_cons, params.eq_def, params.eq_def name]
      simp only [Token.isGap_bare, Token.isLineEnd_bare, Token.isPunct_bare, Token.kind_bare]
      split
      · exact ih st
      · split
        · rfl
        · cases st with
          | separator =>
              simp only
              split
              · rfl
              · split
                · exact ih .param
                · rfl
          | afterEllipsis =>
              simp only
              split <;> rfl
          | first | param =>
              simp only
              split
              · rfl
              · split
                · exact ih .afterEllipsis
                · split
                  · rename_i hk
                    rw [Token.text_bare (Expression.isSpace_of_identifier hk)]
                    split
                    · rfl
                    · rw [verdict_map, verdict_map, ih, except_map_map, except_map_map]
                      rfl
                  · rfl

theorem head_bare (he : e.Akin e') (name name' : Token) (ts : List Token) :
    verdict (head name' ⟨ts.map Token.bare, e'⟩) =
      (verdict (head name ⟨ts, e⟩)).map fun x =>
        (x.1, ⟨x.2.tokens.map Token.bare, e'⟩) := by
  cases ts with
  | nil =>
      cases e with
      | eof =>
          cases he.of_eof
          rfl
      | fault f =>
          obtain ⟨f', rfl, hk⟩ := he.of_fault
          exact congrArg Except.error hk.symm
  | cons t ts =>
      simp only [head, List.map_cons, Token.isPunct_bare, Token.isSpace_bare]
      split
      · rw [verdict_map, verdict_map, params_bare he name, except_map_map, except_map_map]
        rfl
      · split <;> rfl

theorem readName_bare (he : e.Akin e') (ts : List Token) :
    verdict (readName ⟨ts.map Token.bare, e'⟩) =
      (verdict (readName ⟨ts, e⟩)).map fun x =>
        (x.1.unplaced, ⟨x.2.tokens.map Token.bare, e'⟩) := by
  rw [verdict_readName, verdict_readName, Token.dropWhile_isGap_bare, he]
  cases ts.dropWhile Token.isGap with
  | nil => rfl
  | cons t rest =>
      simp only [List.map_cons, Token.kind_bare]
      by_cases hk : t.kind = .identifier
      · have hs := Expression.isSpace_of_identifier hk
        rw [Token.text_bare hs, Token.bare_of_not_isLineEnd (by simp [Token.isLineEnd, hs])]
        split <;> rfl
      · rw [if_neg (fun h => hk h.1), if_neg (fun h => hk h.1)]
        rfl

theorem ending_of_readName {ts : List Token} {x : Token × Line}
    (h : readName ⟨ts, e⟩ = .ok x) : x.2.ending = e := by
  have hv := verdict_readName ts e
  rw [h] at hv
  split at hv
  · cases hv
  · split at hv
    · cases hv
      rfl
    · cases hv

theorem ending_of_head {name : Token} {ts : List Token} {x : Option (List Text) × Line}
    (h : head name ⟨ts, e⟩ = .ok x) : x.2.ending = e := by
  unfold head at h
  split at h
  · split at h
    · cases h
      rfl
    · cases h
  · split at h
    · obtain ⟨y, -, rfl⟩ := except_map_eq_ok h
      rfl
    · split at h
      · cases h
        rfl
      · cases h

/-- A definition reads the same macro. -/
theorem read_bare (he : e.Akin e') (ts : List Token) :
    verdict (read ⟨ts.map Token.bare, e'⟩) =
      (verdict (read ⟨ts, e⟩)).map fun x => (x.1.unplaced, x.2.map Token.bare) := by
  simp only [read, verdict_bind, readName_bare he]
  cases hn : readName ⟨ts, e⟩ with
  | error f => rfl
  | ok x =>
      obtain ⟨name, rest, ending⟩ := x
      obtain rfl : ending = e := ending_of_readName hn
      have hh := head_bare he name name.unplaced rest
      simp only [verdict_ok, Except.map, except_ok_bind, hh]
      cases hp : head name ⟨rest, ending⟩ with
      | error f => rfl
      | ok y =>
          obtain ⟨ps, rest', ending'⟩ := y
          obtain rfl : ending' = ending := ending_of_head hp
          have hs := Line.split_bare he rest'
          simp only [verdict_ok, except_ok_bind, hs]
          cases Line.split ⟨rest', ending'⟩ <;> rfl

theorem define_bare (he : e.Akin e') (T : Table) (ts : List Token) :
    verdict (define T.unplaced ⟨ts.map Token.bare, e'⟩) =
      (verdict (define T ⟨ts, e⟩)).map fun x => (x.1.unplaced, x.2.map Token.bare) := by
  simp only [define, verdict_bind, read_bare he]
  cases read ⟨ts, e⟩ with
  | error f => rfl
  | ok x =>
      have hd := Table.define_unplaced x.1 T
      simp only [verdict_ok, Except.map, except_ok_bind, hd]
      cases T.define x.1 <;> rfl

theorem undef_bare (he : e.Akin e') (T : Table) (ts : List Token) :
    verdict (undef T.unplaced ⟨ts.map Token.bare, e'⟩) =
      (verdict (undef T ⟨ts, e⟩)).map fun x => (x.1.unplaced, x.2.map Token.bare) := by
  simp only [undef, verdict_bind, readName_bare he]
  cases hn : readName ⟨ts, e⟩ with
  | error f => rfl
  | ok x =>
      obtain ⟨name, rest, ending⟩ := x
      obtain rfl : ending = e := ending_of_readName hn
      have hs := Line.takeLineEnd_bare he rest
      simp only [verdict_ok, Except.map, except_ok_bind, hs]
      cases (TokenStream.takeLineEnd (⟨rest, ending⟩ : Line)).1 with
      | error f => rfl
      | ok stop =>
          exact congrArg (fun U => Except.ok (U, stop.map Token.bare))
            (Table.undef_unplaced name.text T)

end Definition

namespace HashLine

/-- The line with no places and no text at its end. -/
def bare (l : HashLine) : HashLine :=
  ⟨l.hash.unplaced, l.tokens.map Token.bare⟩

end HashLine

/-- The group with no place. -/
def Group.unplaced (g : Group) : Group :=
  { g with pos := {} }

namespace Groups

def unplaced (gs : Groups) : Groups :=
  gs.map Group.unplaced

@[simp] theorem active_unplaced (gs : Groups) : gs.unplaced.active = gs.active := by
  cases gs <;> rfl

@[simp] theorem examined_unplaced (gs : Groups) : gs.unplaced.examined = gs.examined := by
  cases gs <;> rfl

@[simp] theorem undecided_unplaced (gs : Groups) : gs.unplaced.undecided = gs.undecided := by
  cases gs <;> rfl

@[simp] theorem unplaced_unplaced (gs : Groups) : gs.unplaced.unplaced = gs.unplaced := by
  rw [unplaced, unplaced, List.map_map]
  rfl

theorem push_unplaced (name : Text) (pos : Pos) (cond : Bool) (gs : Groups) :
    gs.unplaced.push name {} cond = (gs.push name pos cond).unplaced := by
  simp only [push, active_unplaced]
  rfl

theorem elseIf_unplaced (cond : Bool) (p q : Pos) (gs : Groups) :
    verdict (gs.unplaced.elseIf cond p) = (verdict (gs.elseIf cond q)).map unplaced := by
  cases gs with
  | nil => rfl
  | cons g gs =>
      obtain ⟨name, pos, outer, taken, active, seen⟩ := g
      cases seen <;> rfl

theorem otherwise_unplaced (p q : Pos) (gs : Groups) :
    verdict (gs.unplaced.otherwise p) = (verdict (gs.otherwise q)).map unplaced := by
  cases gs with
  | nil => rfl
  | cons g gs =>
      obtain ⟨name, pos, outer, taken, active, seen⟩ := g
      cases seen <;> rfl

theorem pop_unplaced (p q : Pos) (gs : Groups) :
    verdict (gs.unplaced.pop p) = (verdict (gs.pop q)).map unplaced := by
  cases gs <;> rfl

theorem akin_atEnd {gs gs' : Groups} (h : gs.unplaced = gs'.unplaced) :
    gs.atEnd.Akin gs'.atEnd := by
  cases gs with
  | nil =>
      rw [List.map_eq_nil_iff.1 h.symm]
      exact .refl _
  | cons g gs =>
      obtain ⟨g', gs'', rfl, -, -⟩ := List.map_eq_cons_iff.1 h.symm
      exact .fault rfl

end Groups

namespace Directive.State

/-- The state with no places and no record. -/
def unplaced (st : State) : State :=
  { table := st.table.unplaced, groups := st.groups.unplaced }

@[simp] theorem active_unplaced (st : State) : st.unplaced.active = st.active :=
  st.groups.active_unplaced

@[simp] theorem unplaced_unplaced (st : State) : st.unplaced.unplaced = st.unplaced := by
  simp only [unplaced, Table.unplaced_unplaced, Groups.unplaced_unplaced]

theorem record_unplaced (name : Token) (st : State) : (st.record name).unplaced = st.unplaced :=
  rfl

/-- A line that fails does not change whether text is active. -/
theorem active_of_execute_error {keep : Bool} {hash : Token} {l : Line} {st st₁ : State}
    {e : Error} (h : execute keep hash l st = (st₁, .error e)) : st₁.active = st.active := by
  have hkeep {x : Except Error (State × Option Token)} {st₁ : State} {f : Error}
      (hx : st.orKeep x = (st₁, .error f)) : st₁.active = st.active := by
    cases x with
    | error g =>
        cases hx
        rfl
    | ok y => cases hx
  have hopen {name : Token} {l : Line} {check : Except Error (Bool × Option Token)} {st₁ : State}
      {f : Error} (hx : st.openGroup name l check = (st₁, .error f)) :
      st₁.active = st.active := by
    unfold openGroup at hx
    split at hx
    · cases check with
      | error g =>
          cases hx
          rfl
      | ok y => cases hx
    · rename_i ha
      rw [Bool.not_eq_true] at ha
      obtain ⟨rfl, -⟩ := Prod.mk.inj hx
      have hgroups : st.groups.active = false := ha
      simp only [active, Groups.push, hgroups]
      rfl
  have hrun {d : Directive} {name : Token} {l : Line} {st₁ : State} {f : Error}
      (hx : st.run d name l = (st₁, .error f)) : st₁.active = st.active := by
    cases d with
    | ifHolds | ifDefined | ifNotDefined => exact hopen hx
    | elseIf | otherwise | endIf | define | undef => exact hkeep hx
  unfold execute at h
  split at h
  · split at h
    · cases h
    · cases h
      rfl
  · split at h
    · cases h
    · split at h
      · unfold otherLine at h
        split at h
        · cases h
          rfl
        · split at h <;> cases h
      · split at h
        · rename_i hr
          cases h
          exact hrun hr
        · cases h

/-- Two results of a line, the second without places. -/
structure Agree (r r' : State × Except Error (Option Token)) : Prop where
  state : r'.1 = r.1.unplaced
  stop : verdict r'.2 = (verdict r.2).map (Option.map Token.bare)

section Agree

variable {e e' : End}

theorem agree_orKeep {st : State} {x x' : Except Error (State × Option Token)}
    (h : verdict x' = (verdict x).map fun y => (y.1.unplaced, y.2.map Token.bare)) :
    Agree (st.orKeep x) (st.unplaced.orKeep x') := by
  cases x with
  | error f =>
      obtain ⟨f', rfl, hk⟩ := verdict_eq_error.1 h
      exact ⟨rfl, congrArg Except.error hk⟩
  | ok y =>
      cases verdict_eq_ok.1 h
      exact ⟨rfl, rfl⟩

theorem definedCheck_bare (he : e.Akin e') (name : Token) (ts : List Token) (st : State) :
    verdict (st.unplaced.definedCheck name.unplaced ⟨ts.map Token.bare, e'⟩) =
      (verdict (st.definedCheck name ⟨ts, e⟩)).map fun x => (x.1, x.2.map Token.bare) := by
  have htable (n : Text) : st.unplaced.table.isDefined n = st.table.isDefined n :=
    Table.isDefined_unplaced n st.table
  simp only [definedCheck, Line.takeSpace_gaps, Token.dropWhile_isGap_bare]
  cases ts.dropWhile Token.isGap with
  | nil =>
      cases e with
      | eof =>
          cases he.of_eof
          rfl
      | fault f =>
          obtain ⟨f', rfl, hk⟩ := he.of_fault
          exact congrArg Except.error hk.symm
  | cons t rest =>
      simp only [List.map_cons, TokenStream.takeName, TokenStream.next, Line.next,
        Token.kind_bare, List.cons_ne_nil, if_false]
      by_cases hk : t.kind = .identifier
      · simp only [if_pos hk, Token.text_bare (Expression.isSpace_of_identifier hk), htable,
          verdict_bind, Line.takeLineEnd_bare he]
        cases (TokenStream.takeLineEnd (⟨rest, e⟩ : Line)).1 <;> rfl
      · simp only [if_neg hk, verdict_error, Error.kind_orAt]
        rfl

theorem conditionCheck_bare (he : e.Akin e') (name : Token) (ts : List Token) (st : State) :
    verdict (st.unplaced.conditionCheck name.unplaced ⟨ts.map Token.bare, e'⟩) =
      (verdict (st.conditionCheck name ⟨ts, e⟩)).map fun x => (x.1, x.2.map Token.bare) := by
  simp only [conditionCheck, verdict_bind, Line.split_bare he]
  cases Line.split ⟨ts, e⟩ with
  | error f => rfl
  | ok x =>
      have hh := Condition.holds_unplaced st.table name.unplaced.pos name.pos x.1
      simp only [verdict_ok, Except.map, except_ok_bind]
      rw [show st.unplaced.table = st.table.unplaced from rfl, hh]
      cases Condition.holds st.table name.pos x.1 <;> rfl

theorem agree_openGroup (he : e.Akin e') (name : Token) (ts : List Token) (st : State)
    {check check' : Except Error (Bool × Option Token)}
    (hc : verdict check' = (verdict check).map fun x => (x.1, x.2.map Token.bare)) :
    Agree (st.openGroup name ⟨ts, e⟩ check)
      (st.unplaced.openGroup name.unplaced ⟨ts.map Token.bare, e'⟩ check') := by
  have hpush (b : Bool) := congrArg (State.mk st.table.unplaced · [])
    (Groups.push_unplaced name.text name.pos b st.groups)
  simp only [openGroup, active_unplaced]
  split
  · cases check with
    | error f =>
        obtain ⟨f', rfl, hk⟩ := verdict_eq_error.1 hc
        exact ⟨rfl, congrArg Except.error hk⟩
    | ok x =>
        cases verdict_eq_ok.1 hc
        exact ⟨hpush x.1, rfl⟩
  · exact ⟨hpush false, Line.finish_bare he ts⟩

theorem agree_changeTable (he : e.Akin e') (ts : List Token) (st : State)
    {change change' : Except Error (Table × Option Token)}
    (hc : verdict change' = (verdict change).map fun x => (x.1.unplaced, x.2.map Token.bare)) :
    Agree (st.orKeep (st.changeTable ⟨ts, e⟩ change))
      (st.unplaced.orKeep (st.unplaced.changeTable ⟨ts.map Token.bare, e'⟩ change')) := by
  apply agree_orKeep
  simp only [changeTable, active_unplaced]
  split
  · rw [verdict_map, verdict_map, hc, except_map_map, except_map_map]
    rfl
  · rw [verdict_map, verdict_map, Line.finish_bare he, except_map_map, except_map_map]
    rfl

theorem agree_elseIf (he : e.Akin e') (name : Token) (ts : List Token) (st : State) :
    Agree (st.orKeep (st.elseIf name ⟨ts, e⟩))
      (st.unplaced.orKeep (st.unplaced.elseIf name.unplaced ⟨ts.map Token.bare, e'⟩)) := by
  apply agree_orKeep
  have hundecided : st.unplaced.groups.undecided = st.groups.undecided :=
    Groups.undecided_unplaced _
  simp only [elseIf, verdict_bind, Line.split_bare he, hundecided]
  cases Line.split ⟨ts, e⟩ with
  | error f => rfl
  | ok x =>
      have hnext (cond : Bool) :
          verdict (st.unplaced.groups.elseIf cond name.unplaced.pos >>= fun groups =>
              .ok ({ st.unplaced with groups }, x.2.map Token.bare)) =
            (verdict (st.groups.elseIf cond name.pos >>= fun groups =>
              .ok ({ st with groups }, x.2))).map fun y => (y.1.unplaced, y.2.map Token.bare) := by
        have hg := Groups.elseIf_unplaced cond name.unplaced.pos name.pos st.groups
        rw [verdict_bind, verdict_bind, show st.unplaced.groups = st.groups.unplaced from rfl, hg]
        cases st.groups.elseIf cond name.pos <;> rfl
      simp only [verdict_ok, Except.map, except_ok_bind]
      split
      · have hh := Condition.holds_unplaced st.table name.unplaced.pos name.pos x.1
        rw [verdict_bind, verdict_bind, show st.unplaced.table = st.table.unplaced from rfl, hh]
        cases Condition.holds st.table name.pos x.1 with
        | error f => rfl
        | ok cond => exact hnext cond
      · exact hnext false

theorem agree_closing (he : e.Akin e') (name : Token) (ts : List Token) (st : State)
    {f : Pos → Groups → Except Error Groups}
    (hf : ∀ p q gs, verdict (f p gs.unplaced) = (verdict (f q gs)).map Groups.unplaced) :
    Agree
      (st.orKeep do
        let stop ← st.closingEnd ⟨ts, e⟩
        let groups ← f name.pos st.groups
        .ok ({ st with groups }, stop))
      (st.unplaced.orKeep do
        let stop ← st.unplaced.closingEnd ⟨ts.map Token.bare, e'⟩
        let groups ← f name.unplaced.pos st.unplaced.groups
        .ok ({ st.unplaced with groups }, stop)) := by
  apply agree_orKeep
  have hstop : verdict (st.unplaced.closingEnd ⟨ts.map Token.bare, e'⟩) =
      (verdict (st.closingEnd ⟨ts, e⟩)).map (Option.map Token.bare) := by
    have hx : st.unplaced.groups.examined = st.groups.examined := Groups.examined_unplaced _
    simp only [closingEnd, hx]
    split
    · exact Line.takeLineEnd_bare he ts
    · exact Line.finish_bare he ts
  simp only [verdict_bind, hstop]
  cases st.closingEnd ⟨ts, e⟩ with
  | error f => rfl
  | ok stop =>
      have hg := hf name.unplaced.pos name.pos st.groups
      simp only [verdict_ok, Except.map, except_ok_bind]
      rw [show st.unplaced.groups = st.groups.unplaced from rfl, hg]
      cases f name.pos st.groups <;> rfl

/-- A directive does the same to the state with no places. -/
theorem agree_run (he : e.Akin e') (d : Directive) (name : Token) (ts : List Token) (st : State) :
    Agree (st.run d name ⟨ts, e⟩)
    (st.unplaced.run d name.unplaced ⟨ts.map Token.bare, e'⟩) := by
  cases d with
  | ifHolds => exact agree_openGroup he name ts st (conditionCheck_bare he name ts st)
  | ifDefined => exact agree_openGroup he name ts st (definedCheck_bare he name ts st)
  | ifNotDefined =>
      refine agree_openGroup he name ts st ?_
      rw [verdict_map, verdict_map, definedCheck_bare he, except_map_map, except_map_map]
      rfl
  | elseIf => exact agree_elseIf he name ts st
  | otherwise => exact agree_closing he name ts st Groups.otherwise_unplaced
  | endIf => exact agree_closing he name ts st Groups.pop_unplaced
  | define => exact agree_changeTable he ts st (Definition.define_bare he st.table ts)
  | undef => exact agree_changeTable he ts st (Definition.undef_bare he st.table ts)

end Agree
end Directive.State

namespace HashLine

variable {l : HashLine} {d : Directive} {name : Token} {rest : List Token}

theorem eq_ok_of_orKeep {st after : State} {x : Except Error (State × Option Token)}
    {stop : Option Token} (h : st.orKeep x = (after, .ok stop)) : x = .ok (after, stop) := by
  cases x with
  | error e => cases h
  | ok y =>
      cases h
      rfl

theorem stop_of_closingEnd {st : State} {ts : List Token} {stop : Option Token}
    (h : st.closingEnd ⟨ts, .eof⟩ = .ok stop) : stop = ts.find? Token.isLineEnd := by
  unfold State.closingEnd at h
  split at h
  · exact Line.stop_of_takeLineEnd h
  · rw [Line.finish_eof] at h
    cases h
    rfl

/-- Every directive returns the line end. -/
theorem stop_of_run (h : l.heading? = some (d, name, rest)) {st after : State}
    {stop : Option Token} (hr : st.run d name ⟨rest, .eof⟩ = (after, .ok stop)) :
    stop = rest.find? Token.isLineEnd := by
  cases d with
  | define | undef =>
      rw [run_plain h rfl] at hr
      have hx := eq_ok_of_orKeep hr
      unfold State.changeTable at hx
      split at hx
      · obtain ⟨y, hy, hst⟩ := except_map_eq_ok hx
        obtain ⟨T, -, rfl⟩ := except_map_eq_ok hy
        cases hst
        rfl
      · rw [Line.finish_eof] at hx
        cases hx
        rfl
  | ifHolds | ifDefined | ifNotDefined =>
      rw [run_opens h rfl] at hr
      unfold State.openGroup at hr
      split at hr
      · cases hx : l.truth st.table with
        | error e =>
            rw [hx] at hr
            cases hr
        | ok b =>
            rw [hx] at hr
            cases hr
            rfl
      · rw [Line.finish_eof] at hr
        cases hr
        rfl
  | elseIf =>
      obtain ⟨x, hx, hy⟩ := except_bind_eq_ok (eq_ok_of_orKeep hr)
      rw [Line.split_eof] at hx
      cases hx
      simp only at hy
      split at hy
      · obtain ⟨cond, -, hy⟩ := except_bind_eq_ok hy
        obtain ⟨groups, -, hy⟩ := except_bind_eq_ok hy
        cases hy
        rfl
      · obtain ⟨cond, -, hy⟩ := except_bind_eq_ok hy
        obtain ⟨groups, -, hy⟩ := except_bind_eq_ok hy
        cases hy
        rfl
  | otherwise | endIf =>
      obtain ⟨x, hx, hy⟩ := except_bind_eq_ok (eq_ok_of_orKeep hr)
      obtain ⟨groups, -, hy⟩ := except_bind_eq_ok hy
      cases hy
      exact stop_of_closingEnd hx

/-- Whether the line has a name that is no directive. -/
def unknown (l : HashLine) : Bool :=
  match l.tokens.dropWhile Token.isGap with
  | [] => false
  | name :: _ => !name.isLineEnd && (ofName? name.text).isNone

/-- What takes the place of a line, from whether text is active before and after it. -/
def remains (keep before after : Bool) (l : HashLine) : List Token :=
  if keep && before && l.unknown then
    l.hash :: (l.tokens.takeWhile fun t => !t.isLineEnd) ++
      (l.tokens.find? Token.isLineEnd).toList
  else if before || after then l.breaks else []

theorem unknown_bare (l : HashLine) : l.bare.unknown = l.unknown := by
  simp only [unknown, bare, Token.dropWhile_isGap_bare]
  cases l.tokens.dropWhile Token.isGap with
  | nil => rfl
  | cons name rest =>
      simp only [List.map_cons, Token.isLineEnd_bare]
      cases hn : name.isLineEnd with
      | true => rfl
      | false => rw [Token.bare_of_not_isLineEnd hn, Token.text_unplaced]

theorem takeWhile_isGap_append (ts : List Token) :
    ts.takeWhile Token.isGap ++ (ts.dropWhile Token.isGap).takeWhile (fun t => !t.isLineEnd) =
      ts.takeWhile fun t => !t.isLineEnd := by
  induction ts with
  | nil => rfl
  | cons t ts ih =>
      by_cases ht : t.isGap = true
      · rw [List.takeWhile_cons_of_pos ht, List.dropWhile_cons_of_pos ht,
          List.takeWhile_cons_of_pos (by simp [Token.not_isLineEnd_of_isGap ht]),
          List.cons_append, ih]
      · rw [List.takeWhile_cons_of_neg ht, List.dropWhile_cons_of_neg ht, List.nil_append]

theorem execute_other (h : l.heading? = none) (keep : Bool) (st : State) :
    ∃ st₁, execute keep l.hash ⟨l.tokens, .eof⟩ st =
        (st₁, .ok (l.remains keep st.active st₁.active)) ∧ st₁.unplaced = st.unplaced := by
  unfold heading? at h
  have hf := Token.find?_dropWhile_isGap l.tokens
  have htake := takeWhile_isGap_append l.tokens
  unfold execute
  simp only [remains, unknown, breaks_eq, ← hf]
  split at h
  · rename_i hd
    simp only [hd]
    refine ⟨st, ?_, rfl⟩
    cases st.active <;> simp [lineBreak]
  · rename_i name rest hd
    simp only [hd]
    split at h
    · rename_i hn
      refine ⟨st, ?_, rfl⟩
      rw [if_pos hn, List.find?_cons_of_pos hn]
      simp [hn]
    · rename_i hn
      have ho : ofName? name.text = none := Option.map_eq_none_iff.1 h
      rw [if_neg hn, ho, List.find?_cons_of_neg hn]
      simp only [otherLine, Line.split_eof]
      rw [hd, List.takeWhile_cons_of_pos (by simpa using hn)] at htake
      by_cases hk : (st.active && keep) = true
      · rw [if_pos hk]
        refine ⟨st.record name, ?_, State.record_unplaced name st⟩
        simp only [Bool.and_eq_true] at hk
        simp [hk, hn, ← htake]
      · rw [if_neg hk]
        refine ⟨st, ?_, rfl⟩
        rw [Bool.and_comm, Bool.not_eq_true] at hk
        rw [hk, Bool.false_and, Bool.or_self]
        rfl

theorem unknown_of_heading (h : l.heading? = some (d, name, rest)) : l.unknown = false := by
  unfold heading? at h
  split at h
  · cases h
  · rename_i name' rest' hd
    rw [unknown, hd]
    split at h
    · rename_i hn
      simp [hn]
    · obtain ⟨d', hd', -⟩ := Option.map_eq_some_iff.1 h
      simp [hd']

theorem execute_of_run (h : l.heading? = some (d, name, rest)) (keep : Bool) {st after : State}
    {stop : Option Token} (hr : st.run d name ⟨rest, .eof⟩ = (after, .ok stop)) :
    ∃ st₁, execute keep l.hash ⟨l.tokens, .eof⟩ st =
        (st₁, .ok (l.remains keep st.active st₁.active)) ∧
        st₁.unplaced = after.unplaced := by
  rw [execute_of_heading?_eq_some h, hr]
  simp only [remains, unknown_of_heading h, Bool.and_false, Bool.false_eq_true, if_false,
    breaks_of_heading? h, stop_of_run h hr]
  split
  · exact ⟨after.record name, rfl, State.record_unplaced name after⟩
  · exact ⟨after, rfl, rfl⟩

/-- What takes the place of a line that is executed. -/
theorem eq_remains_of_execute {keep : Bool} {st st₁ : State} {out : List Token}
    (hx : execute keep l.hash ⟨l.tokens, .eof⟩ st = (st₁, .ok out)) :
    out = l.remains keep st.active st₁.active := by
  cases hh : l.heading? with
  | none =>
      obtain ⟨st₂, he, -⟩ := execute_other hh keep st
      rw [he] at hx
      cases hx
      rfl
  | some x =>
      obtain ⟨d, name, rest⟩ := x
      cases hr : st.run d name ⟨rest, .eof⟩ with
      | mk after r =>
          cases r with
          | error f =>
              rw [execute_of_heading?_eq_some hh, hr] at hx
              cases hx
          | ok stop =>
              obtain ⟨st₂, he, -⟩ := execute_of_run hh keep hr
              rw [he] at hx
              cases hx
              rfl

/-- A line does the same to the state with no places. -/
theorem execute_bare {e e' : End} (he : e.Akin e') (keep : Bool) (l : HashLine) (st : State) :
    (execute keep l.bare.hash ⟨l.bare.tokens, e'⟩ st.unplaced).1.unplaced =
        (execute keep l.hash ⟨l.tokens, e⟩ st).1.unplaced ∧
      (verdict (execute keep l.bare.hash ⟨l.bare.tokens, e'⟩ st.unplaced).2).map (fun _ => ()) =
        (verdict (execute keep l.hash ⟨l.tokens, e⟩ st).2).map fun _ => () := by
  have hst := st.unplaced_unplaced
  unfold execute
  simp only [bare, Token.dropWhile_isGap_bare]
  cases l.tokens.dropWhile Token.isGap with
  | nil =>
      cases e with
      | eof =>
          cases he.of_eof
          exact ⟨hst, rfl⟩
      | fault f =>
          obtain ⟨f', rfl, hk⟩ := he.of_fault
          exact ⟨hst, congrArg Except.error hk.symm⟩
  | cons name rest =>
      simp only [List.map_cons, Token.isLineEnd_bare]
      by_cases hn : name.isLineEnd = true
      · rw [if_pos hn, if_pos hn]
        exact ⟨hst, rfl⟩
      · rw [if_neg hn, if_neg hn, Token.bare_of_not_isLineEnd (Bool.eq_false_iff.2 hn),
          Token.text_unplaced]
        cases ofName? name.text with
        | none =>
            have hs := Line.split_bare he rest
            simp only [otherLine, State.active_unplaced]
            cases hx : Line.split ⟨rest, e⟩ with
            | error f =>
                rw [hx] at hs
                obtain ⟨f', hx', hk⟩ := verdict_eq_error.1 hs
                rw [hx']
                exact ⟨hst, congrArg Except.error hk⟩
            | ok y =>
                rw [hx] at hs
                rw [verdict_eq_ok.1 hs]
                simp only
                split
                · exact ⟨hst, rfl⟩
                · exact ⟨hst, rfl⟩
        | some d =>
            obtain ⟨hstate, hstop⟩ := State.agree_run he d name rest st
            simp only [State.active_unplaced]
            generalize st.run d name ⟨rest, e⟩ = r at hstate hstop
            generalize st.unplaced.run d name.unplaced ⟨rest.map Token.bare, e'⟩ = r'
              at hstate hstop
            obtain ⟨after, stop⟩ := r
            obtain ⟨after', stop'⟩ := r'
            obtain rfl : after' = after.unplaced := hstate
            cases stop with
            | error f =>
                obtain ⟨f', rfl, hk⟩ := verdict_eq_error.1 hstop
                exact ⟨after.unplaced_unplaced, congrArg Except.error hk⟩
            | ok stop =>
                cases verdict_eq_ok.1 hstop
                refine ⟨?_, rfl⟩
                simp only
                split
                · exact after.unplaced_unplaced
                · exact after.unplaced_unplaced

/-- A line does the same to the same state, wherever it stands and however much white space
ends it. -/
theorem execute_alike (l l' : HashLine) (hl : l.bare = l'.bare) {e e' : End} (he : e.Akin e')
    {st st' : State} (hst : st.unplaced = st'.unplaced) (keep : Bool) :
    (execute keep l.hash ⟨l.tokens, e⟩ st).1.unplaced =
        (execute keep l'.hash ⟨l'.tokens, e'⟩ st').1.unplaced ∧
      (verdict (execute keep l.hash ⟨l.tokens, e⟩ st).2).map (fun _ => ()) =
        (verdict (execute keep l'.hash ⟨l'.tokens, e'⟩ st').2).map fun _ => () := by
  have h := execute_bare (End.Akin.refl e) keep l st
  have h' := execute_bare he.symm keep l' st'
  rw [← hl, ← hst] at h'
  exact ⟨h.1.symm.trans h'.1, h.2.symm.trans h'.2⟩

end HashLine
end CPreprocessor

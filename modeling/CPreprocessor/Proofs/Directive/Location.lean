import CPreprocessor.Proofs.Condition.Location
import CPreprocessor.Proofs.Directive.Closure
import CPreprocessor.Proofs.Directive.Failure
import CPreprocessor.Proofs.Directive.Step

/-!
Where the errors of directives stand: at a token of the line, at the name of the directive, or at
the directive that opened a group. Only a definition or a removal that finds the end of the input
in the place of its name is reported without a place.
-/

namespace CPreprocessor

open Directive
open Error (Located)

variable {S : Pos → Prop}

namespace TokenStream

variable {ρ : Type} [TokenStream ρ] {R : ρ → Prop} {r s : ρ}
  (hK : Keeps (fun t => S t.pos) R) (hL : Locates S R)
include hK hL

theorem Locates.takeName (h : R r) : FailsIn (Located S) (takeName r).1 := by
  unfold TokenStream.takeName
  split
  · rename_i hn
    split
    · exact .ok _
    · exact .error (.here (hK.token h hn).1 _)
  · exact .error ⟨rfl, .inr ⟨rfl, rfl⟩⟩
  · rename_i hn
    exact .error (hL.fault h hn)

theorem Locates.takeLineEnd (h : R r) : FailsIn (Located S) (takeLineEnd r).1 := by
  fun_induction TokenStream.takeLineEnd r with
  | case1 | case4 => exact .ok _
  | case2 r t r₁ hn _ _ ih => exact ih (hK.token h hn).2
  | case3 r t r₁ hn => exact .error (.here (hK.token h hn).1 _)
  | case5 r e r₁ hn => exact .error (hL.fault h hn)

end TokenStream

namespace Line

/-- The tokens of the line stand at positions of `S`, and so does the error it breaks off with. -/
structure Placed (S : Pos → Prop) (l : Line) : Prop where
  tokens : ∀ t ∈ l.tokens, S t.pos
  ending : ∀ e, l.ending = .fault e → Located S e

theorem keeps_placed : TokenStream.Keeps (fun t => S t.pos) (Placed S) where
  token {l m t} h hn := by
    obtain ⟨ts, e⟩ := l
    cases ts with
    | nil => cases hn
    | cons u us =>
        cases hn
        obtain ⟨ht, hus⟩ := List.forall_mem_cons.1 h.tokens
        exact ⟨ht, hus, h.ending⟩
  stop {l m e} h hn := by
    obtain ⟨ts, e⟩ := l
    cases ts with
    | nil =>
        cases hn
        exact h
    | cons u us => cases hn
  unread h hts := ⟨List.forall_mem_append.2 ⟨hts, h.tokens⟩, h.ending⟩

theorem locates_placed : TokenStream.Locates S (Placed S) where
  fault {l m e} h hn := by
    obtain ⟨ts, e⟩ := l
    cases ts with
    | nil =>
        cases hn
        exact h.ending _ rfl
    | cons u us => cases hn

namespace Placed

variable {l : Line} (h : l.Placed S)
include h

theorem of_suffix {ts : List Token} (hts : ts <:+ l.tokens) : Placed S { l with tokens := ts } :=
  ⟨fun t ht => h.tokens t (hts.subset ht), h.ending⟩

theorem split : FailsIn (Located S) l.split := by
  unfold Line.split
  split
  · exact .ok _
  · exact .ok _
  · rename_i e _ he
    exact .error (h.ending e he)

theorem finish : FailsIn (Located S) l.finish :=
  h.split.map _

theorem takeLineEnd : FailsIn (Located S) (TokenStream.takeLineEnd l).1 :=
  locates_placed.takeLineEnd keeps_placed h

end Placed
end Line

namespace Definition

variable {l l' : Line} {name : Token}

theorem located_readName (h : l.Placed S) : FailsIn (Located S) (readName l) := by
  unfold readName
  split
  · rename_i hs
    exact .error (Line.locates_placed.takeSpace Line.keeps_placed h hs)
  · rename_i hs
    have h₁ := (Line.keeps_placed.takeSpace h hs).2
    split
    · rename_i hn
      exact .error (Line.locates_placed.takeName Line.keeps_placed h₁ _ (congrArg Prod.fst hn))
    · rename_i hn
      split
      · exact .error (.here (Line.keeps_placed.takeName h₁ hn).1 _)
      · exact .ok _

theorem located_params (hname : S name.pos) {ending : End}
    (hend : ∀ e, ending = .fault e → Located S e) {st : Expecting} {ts : List Token}
    (h : ∀ t ∈ ts, S t.pos) : FailsIn (Located S) (params name ending st ts) := by
  induction ts generalizing st with
  | nil =>
      rw [params.eq_def]
      cases ending with
      | eof => exact .error (.here hname _)
      | fault e => exact .error (hend e rfl)
  | cons t ts ih =>
      obtain ⟨ht, hts⟩ := List.forall_mem_cons.1 h
      rw [params.eq_def]
      simp only
      split
      · exact ih hts
      · split
        · exact .error (.here hname _)
        · cases st with
          | separator =>
              simp only
              split
              · exact .ok _
              · split
                · exact ih hts
                · exact .error (.here ht _)
          | afterEllipsis =>
              simp only
              split
              · exact .ok _
              · exact .error (.here ht _)
          | first | param =>
              simp only
              split
              · exact .ok _
              · split
                · exact ih hts
                · split
                  · split
                    · exact .error (.here ht _)
                    · exact (ih hts).map _
                  · exact .error (.here ht _)

theorem located_head (h : l.Placed S) (hname : S name.pos) :
    FailsIn (Located S) (head name l) := by
  obtain ⟨ts, ending⟩ := l
  cases ts with
  | nil =>
      cases ending with
      | eof => exact .ok _
      | fault e => exact .error (h.ending e rfl)
  | cons t ts =>
      obtain ⟨ht, hts⟩ := List.forall_mem_cons.1 h.tokens
      simp only [head]
      split
      · exact (located_params hname h.ending hts).map _
      · split
        · exact .ok _
        · exact .error (.here ht _)

theorem placed_of_head (h : l.Placed S) {ps : Option (List Text)}
    (hh : head name l = .ok (ps, l')) : l'.Placed S := by
  refine ⟨all_head h.tokens hh, ?_⟩
  obtain ⟨ts, ending⟩ := l
  cases ts with
  | nil =>
      cases ending <;> cases hh
      exact h.ending
  | cons t ts =>
      simp only [head] at hh
      split at hh
      · obtain ⟨⟨qs, rest⟩, -, he⟩ := except_map_eq_ok hh
        cases he
        exact h.ending
      · split at hh
        · cases hh
          exact h.ending
        · cases hh

theorem located_define (h : l.Placed S) (T : Table) : FailsIn (Located S) (define T l) := by
  have hread : FailsIn (Located S) (read l) := by
    refine (located_readName h).bind fun ⟨name, l₁⟩ hr => ?_
    obtain ⟨hname, h₁⟩ := keeps_readName Line.keeps_placed h hr
    refine (located_head h₁ hname).bind fun ⟨ps, l₂⟩ hh => ?_
    have h₂ : l₂.Placed S := placed_of_head h₁ hh
    exact h₂.split.bind fun _ _ => .ok _
  refine hread.bind fun ⟨m, stop⟩ hm => ?_
  obtain ⟨⟨name, l₁⟩, hr, hm'⟩ := except_bind_eq_ok hm
  obtain ⟨⟨ps, l₂⟩, -, hm'⟩ := except_bind_eq_ok hm'
  obtain ⟨⟨body, stop⟩, -, hm'⟩ := except_bind_eq_ok hm'
  have hname : S m.pos := by
    cases hm'
    exact (keeps_readName Line.keeps_placed h hr).1
  refine FailsIn.bind (fun e he => ?_) fun _ _ => .ok _
  exact (T.kindAt_define hname (all_read h.tokens hm).1 e he).located

theorem located_undef (h : l.Placed S) (T : Table) : FailsIn (Located S) (undef T l) := by
  refine (located_readName h).bind fun ⟨name, l₁⟩ hr => ?_
  exact (keeps_readName Line.keeps_placed h hr).2.takeLineEnd.bind fun _ _ => .ok _

end Definition

namespace Groups

/-- The directives that opened the groups stand at positions of `S`. -/
def Placed (S : Pos → Prop) (gs : Groups) : Prop :=
  ∀ g ∈ gs, S g.pos

variable {gs gs' : Groups} {pos : Pos}

theorem Placed.push (h : Placed S gs) (hpos : S pos) (name : Text) (cond : Bool) :
    Placed S (Groups.push name pos cond gs) :=
  List.forall_mem_cons.2 ⟨hpos, h⟩

/-- What changes the innermost group keeps the place of it, or fails at the directive. -/
theorem Placed.elseIf (h : Placed S gs) (hpos : S pos) (cond : Bool) :
    FailsIn (Located S) (Groups.elseIf cond pos gs) ∧
      ∀ {gs'}, Groups.elseIf cond pos gs = .ok gs' → Placed S gs' := by
  cases gs with
  | nil => exact ⟨.error (.here hpos _), nofun⟩
  | cons g gs =>
      obtain ⟨hg, hgs⟩ := List.forall_mem_cons.1 h
      refine ⟨?_, fun hok => ?_⟩
      · rw [Groups.elseIf]
        split
        · exact .error (.here hpos _)
        · exact .ok _
      · rw [Groups.elseIf] at hok
        split at hok
        · cases hok
        · cases hok
          exact List.forall_mem_cons.2 ⟨hg, hgs⟩

theorem Placed.otherwise (h : Placed S gs) (hpos : S pos) :
    FailsIn (Located S) (Groups.otherwise pos gs) ∧
      ∀ {gs'}, Groups.otherwise pos gs = .ok gs' → Placed S gs' := by
  cases gs with
  | nil => exact ⟨.error (.here hpos _), nofun⟩
  | cons g gs =>
      obtain ⟨hg, hgs⟩ := List.forall_mem_cons.1 h
      refine ⟨?_, fun hok => ?_⟩
      · rw [Groups.otherwise]
        split
        · exact .error (.here hpos _)
        · exact .ok _
      · rw [Groups.otherwise] at hok
        split at hok
        · cases hok
        · cases hok
          exact List.forall_mem_cons.2 ⟨hg, hgs⟩

theorem Placed.pop (h : Placed S gs) (hpos : S pos) :
    FailsIn (Located S) (Groups.pop pos gs) ∧
      ∀ {gs'}, Groups.pop pos gs = .ok gs' → Placed S gs' := by
  cases gs with
  | nil => exact ⟨.error (.here hpos _), nofun⟩
  | cons g gs =>
      refine ⟨.ok _, ?_⟩
      rintro _ ⟨⟩
      exact (List.forall_mem_cons.1 h).2

theorem Placed.atEnd (h : Placed S gs) {e : Error} (he : gs.atEnd = .fault e) : Located S e := by
  cases gs with
  | nil => cases he
  | cons g gs =>
      cases he
      exact .here (List.forall_mem_cons.1 h).1 _

end Groups

namespace Directive

/-- The macros and the open groups of a state stand at positions of `S`. -/
structure State.Placed (S : Pos → Prop) (st : State) : Prop where
  table : st.table.All fun t => S t.pos
  groups : Groups.Placed S st.groups

namespace State

variable {st : State} {l : Line} {name : Token}

/-- The groups of a state after a line are placed, and so is the error of the line. -/
structure Settles (S : Pos → Prop) {α : Type} (r : State × Except Error α) : Prop where
  groups : Groups.Placed S r.1.groups
  fails : FailsIn (Located S) r.2

theorem located_definedCheck (hname : S name.pos) (h : l.Placed S) :
    FailsIn (Located S) (st.definedCheck name l) := by
  unfold definedCheck
  split
  · rename_i hs
    exact .error (Line.locates_placed.takeSpace Line.keeps_placed h hs)
  · rename_i hs
    have h₁ := (Line.keeps_placed.takeSpace h hs).2
    split
    · rename_i hn
      have he := Line.locates_placed.takeName Line.keeps_placed h₁ _ (congrArg Prod.fst hn)
      exact .error (he.orAt hname)
    · rename_i hn
      exact (Line.keeps_placed.takeName h₁ hn).2.takeLineEnd.bind fun _ _ => .ok _

theorem located_conditionCheck (hst : st.Placed S) (hname : S name.pos) (h : l.Placed S) :
    FailsIn (Located S) (st.conditionCheck name l) := by
  refine h.split.bind fun ⟨body, stop⟩ hs => ?_
  refine (Condition.located_holds hst.table hname ?_).bind fun _ _ => .ok _
  exact (Line.all_split h.tokens hs).1

theorem located_closingEnd (h : l.Placed S) : FailsIn (Located S) (st.closingEnd l) := by
  unfold closingEnd
  split
  · exact h.takeLineEnd
  · exact h.finish

theorem settles_openGroup (hst : st.Placed S) (hname : S name.pos) (h : l.Placed S)
    {check : Except Error (Bool × Option Token)} (hc : FailsIn (Located S) check) :
    Settles S (st.openGroup name l check) := by
  unfold openGroup
  split
  · cases check with
    | error e => exact ⟨hst.groups, .error (hc e rfl)⟩
    | ok y => exact ⟨hst.groups.push hname _ _, .ok _⟩
  · exact ⟨hst.groups.push hname _ _, h.finish⟩

theorem settles_orKeep (hst : st.Placed S) {x : Except Error (State × Option Token)}
    (hx : FailsIn (Located S) x)
    (hgroups : ∀ {st' stop}, x = .ok (st', stop) → Groups.Placed S st'.groups) :
    Settles S (st.orKeep x) := by
  cases x with
  | error e => exact ⟨hst.groups, .error (hx e rfl)⟩
  | ok y => exact ⟨hgroups rfl, .ok _⟩

theorem settles_changeTable (hst : st.Placed S) (h : l.Placed S)
    {change : Except Error (Table × Option Token)} (hc : FailsIn (Located S) change) :
    Settles S (st.orKeep (st.changeTable l change)) := by
  refine settles_orKeep hst ?_ fun {st' stop} hx => ?_
  · unfold changeTable
    split
    · exact hc.map _
    · exact h.finish.map _
  · unfold changeTable at hx
    split at hx
    all_goals
      obtain ⟨y, -, hy⟩ := except_map_eq_ok hx
      cases hy
      exact hst.groups

theorem settles_run (hst : st.Placed S) (hname : S name.pos) (h : l.Placed S) (d : Directive) :
    Settles S (st.run d name l) := by
  cases d with
  | ifHolds => exact settles_openGroup hst hname h (located_conditionCheck hst hname h)
  | ifDefined => exact settles_openGroup hst hname h (located_definedCheck hname h)
  | ifNotDefined => exact settles_openGroup hst hname h ((located_definedCheck hname h).map _)
  | elseIf =>
      have helse := hst.groups.elseIf hname
      refine settles_orKeep hst ?_ fun {st' stop} hx => ?_
      · rw [elseIf_eq]
        refine h.split.bind fun x hs => ?_
        refine FailsIn.bind ?_ fun cond _ => (helse cond).1.bind fun _ _ => .ok _
        split
        · exact Condition.located_holds hst.table hname (Line.all_split h.tokens hs).1
        · exact .ok _
      · rw [elseIf_eq] at hx
        obtain ⟨x, -, hx⟩ := except_bind_eq_ok hx
        obtain ⟨cond, -, hx⟩ := except_bind_eq_ok hx
        obtain ⟨groups, hg, hx⟩ := except_bind_eq_ok hx
        cases hx
        exact (helse cond).2 hg
  | otherwise =>
      refine settles_orKeep hst ?_ fun {st' stop} hx => ?_
      · exact (located_closingEnd h).bind fun _ _ =>
          (hst.groups.otherwise hname).1.bind fun _ _ => .ok _
      · obtain ⟨stop, -, hx⟩ := except_bind_eq_ok hx
        obtain ⟨groups, hg, hx⟩ := except_bind_eq_ok hx
        cases hx
        exact (hst.groups.otherwise hname).2 hg
  | endIf =>
      refine settles_orKeep hst ?_ fun {st' stop} hx => ?_
      · exact (located_closingEnd h).bind fun _ _ => (hst.groups.pop hname).1.bind fun _ _ => .ok _
      · obtain ⟨stop, -, hx⟩ := except_bind_eq_ok hx
        obtain ⟨groups, hg, hx⟩ := except_bind_eq_ok hx
        cases hx
        exact (hst.groups.pop hname).2 hg
  | define => exact settles_changeTable hst h (Definition.located_define h st.table)
  | undef => exact settles_changeTable hst h (Definition.located_undef h st.table)

end State

variable {st : State} {l : Line} {hash : Token}

theorem cuts_pos (S : Pos → Prop) : Cuts fun t => S t.pos := by
  intro t ht _ u hu
  unfold lineBreak at hu
  simp only at hu
  split at hu
  · cases hu
  · obtain rfl := List.mem_singleton.1 hu
    exact ht

theorem settles_execute (hst : st.Placed S) (h : l.Placed S) (keep : Bool) (hash : Token) :
    State.Settles S (execute keep hash l st) := by
  have hsuffix := List.dropWhile_suffix (l := l.tokens) Token.isGap
  have hcase := execute_cases keep hash l st
  generalize execute keep hash l st = r at hcase
  have hrun {name : Token} {rest : List Token}
      (hd : l.tokens.dropWhile Token.isGap = name :: rest) :
      S name.pos ∧ Line.Placed S { l with tokens := rest } := by
    rw [hd] at hsuffix
    exact ⟨h.tokens name (hsuffix.subset List.mem_cons_self),
      h.of_suffix ((List.suffix_cons name rest).trans hsuffix)⟩
  cases hcase with
  | ended | blank | kept | dropped => exact ⟨hst.groups, .ok _⟩
  | broken _ he => exact ⟨hst.groups, .error (h.ending _ he)⟩
  | unread hd _ _ hs => exact ⟨hst.groups, .error ((hrun hd).2.split _ hs)⟩
  | @failed name rest d after e hd _ _ hr =>
      have hsettles := State.settles_run hst (hrun hd).1 (hrun hd).2 d
      rw [hr] at hsettles
      exact ⟨hsettles.groups, .error (hsettles.fails _ rfl)⟩
  | @done name rest d after stop hd _ _ hr =>
      have hsettles := State.settles_run hst (hrun hd).1 (hrun hd).2 d
      rw [hr] at hsettles
      refine ⟨?_, .ok _⟩
      simp only
      split
      · exact hsettles.groups
      · exact hsettles.groups

/-- A line keeps the places of the state, and what takes its place is placed or an error. -/
theorem placed_execute (hst : st.Placed S) (h : l.Placed S) (keep : Bool) (hhash : S hash.pos) :
    (execute keep hash l st).1.Placed S ∧ FailsIn (Located S) (execute keep hash l st).2 ∧
      ∀ {out}, (execute keep hash l st).2 = .ok out → ∀ t ∈ out, S t.pos := by
  obtain ⟨hgroups, hfails⟩ := settles_execute hst h keep hash
  obtain ⟨htable, hout⟩ := all_execute (cuts_pos S) keep (fun _ => hhash) hst.table
    fun t ht _ => h.tokens t ht
  exact ⟨⟨htable, hgroups⟩, hfails, hout⟩

end Directive

end CPreprocessor

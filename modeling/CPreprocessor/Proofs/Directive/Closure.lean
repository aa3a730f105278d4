import CPreprocessor.Proofs.Directive.Seam
import CPreprocessor.Proofs.Macro.Closure

/-!
Properties of tokens that directives keep. Active text takes over what its lines are made of,
into the macro table and into the output. Of a line in skipped text only the white space that
ends it can get there, so that a property of the white space is enough.
-/

namespace CPreprocessor

variable {P Q : Token → Prop}

namespace TokenStream.Keeps

variable {ρ : Type} [TokenStream ρ] {R : ρ → Prop} {r s : ρ}

theorem takeName (hK : Keeps P R) {id : Token} (h : R r) (hs : takeName r = (.ok id, s)) :
    P id ∧ R s := by
  unfold TokenStream.takeName at hs
  split at hs
  · rename_i hn
    split at hs
    · cases hs
      exact hK.token h hn
    · cases hs
  · cases hs
  · cases hs

/-- The line end that is taken is white space with the property. -/
theorem takeLineEnd (hK : Keeps P R) {stop : Option Token} (h : R r)
    (hs : (takeLineEnd r).1 = .ok stop) : ∀ t ∈ stop, P t ∧ t.isSpace = true := by
  fun_induction TokenStream.takeLineEnd r with
  | case1 r t r₁ hn ht =>
      cases hs
      intro u hu
      cases hu
      exact ⟨(hK.token h hn).1, (Bool.and_eq_true_iff.1 ht).1⟩
  | case2 r t r₁ hn _ _ ih => exact ih (hK.token h hn).2 hs
  | case3 | case5 => cases hs
  | case4 =>
      cases hs
      intro u hu
      cases hu

end TokenStream.Keeps

namespace Line

variable {l : Line}

theorem keeps : TokenStream.Keeps Q fun l : Line => ∀ t ∈ l.tokens, Q t where
  token {l m t} h hn := by
    obtain ⟨ts, e⟩ := l
    cases ts with
    | nil => cases hn
    | cons u us =>
        cases hn
        exact List.forall_mem_cons.1 h
  stop {l m e} h hn := by
    obtain ⟨ts, e⟩ := l
    cases ts with
    | nil =>
        cases hn
        exact h
    | cons u us => cases hn
  unread h hts := List.forall_mem_append.2 ⟨hts, h⟩

theorem all_split (h : ∀ t ∈ l.tokens, Q t) {body : List Token} {stop : Option Token}
    (hs : l.split = .ok (body, stop)) :
    (∀ t ∈ body, Q t) ∧ ∀ t ∈ stop, Q t ∧ t.isSpace = true := by
  have hbody : ∀ t ∈ l.tokens.takeWhile fun t => !t.isLineEnd, Q t :=
    fun t ht => h t ((List.takeWhile_prefix _).subset ht)
  simp only [split] at hs
  split at hs
  · rename_i t hf
    cases hs
    refine ⟨hbody, fun u hu => ?_⟩
    cases hu
    have ht : t.isLineEnd = true := List.find?_some hf
    exact ⟨h t (List.mem_of_find?_eq_some hf), (Bool.and_eq_true_iff.1 ht).1⟩
  · cases hs
    exact ⟨hbody, fun u hu => by cases hu⟩
  · cases hs

theorem all_finish (h : ∀ t ∈ l.tokens, Q t) {stop : Option Token} (hs : l.finish = .ok stop) :
    ∀ t ∈ stop, Q t ∧ t.isSpace = true := by
  obtain ⟨⟨body, stop⟩, hsplit, rfl⟩ := except_map_eq_ok hs
  exact (all_split h hsplit).2

end Line

namespace Definition

variable {l l' : Line} {name : Token}

theorem keeps_readName {R : Line → Prop} (hK : TokenStream.Keeps Q R) (h : R l)
    (hr : readName l = .ok (name, l')) : Q name ∧ R l' := by
  unfold readName at hr
  split at hr
  · cases hr
  · rename_i hs
    have h₁ := (hK.takeSpace h hs).2
    split at hr
    · cases hr
    · rename_i hn
      split at hr
      · cases hr
      · cases hr
        exact hK.takeName h₁ hn

theorem all_params {ending : End} {st : Expecting} {ts rest : List Token} {ps : List Text}
    (h : ∀ t ∈ ts, Q t) (hp : params name ending st ts = .ok (ps, rest)) :
    ∀ t ∈ rest, Q t := by
  induction ts generalizing st ps with
  | nil =>
      rw [params.eq_def] at hp
      cases ending <;> cases hp
  | cons t ts ih =>
      have hts := (List.forall_mem_cons.1 h).2
      rw [params.eq_def] at hp
      simp only at hp
      split at hp
      · exact ih hts hp
      · split at hp
        · cases hp
        · cases st with
          | separator =>
              simp only at hp
              split at hp
              · cases hp
                exact hts
              · split at hp
                · exact ih hts hp
                · cases hp
          | afterEllipsis =>
              simp only at hp
              split at hp
              · cases hp
                exact hts
              · cases hp
          | first | param =>
              simp only at hp
              split at hp
              · cases hp
                exact hts
              · split at hp
                · exact ih hts hp
                · split at hp
                  · split at hp
                    · cases hp
                    · obtain ⟨⟨qs, r⟩, hq, he⟩ := except_map_eq_ok hp
                      cases he
                      exact ih hts hq
                  · cases hp

theorem all_head (h : ∀ t ∈ l.tokens, Q t) {ps : Option (List Text)}
    (hh : head name l = .ok (ps, l')) : ∀ t ∈ l'.tokens, Q t := by
  obtain ⟨ts, ending⟩ := l
  cases ts with
  | nil =>
      cases ending <;> cases hh
      exact h
  | cons t ts =>
      simp only [head] at hh
      split at hh
      · obtain ⟨⟨qs, rest⟩, hq, he⟩ := except_map_eq_ok hh
        cases he
        exact all_params (List.forall_mem_cons.1 h).2 hq
      · split at hh
        · cases hh
          exact h
        · cases hh

theorem all_read (h : ∀ t ∈ l.tokens, Q t) {m : Macro} {stop : Option Token}
    (hr : read l = .ok (m, stop)) :
    (∀ t ∈ m.body, Q t) ∧ ∀ t ∈ stop, Q t ∧ t.isSpace = true := by
  obtain ⟨⟨name, l₁⟩, hn, hr⟩ := except_bind_eq_ok hr
  obtain ⟨⟨ps, l₂⟩, hh, hr⟩ := except_bind_eq_ok hr
  obtain ⟨⟨body, stop⟩, hs, hr⟩ := except_bind_eq_ok hr
  cases hr
  exact Line.all_split (all_head (keeps_readName Line.keeps h hn).2 hh) hs

end Definition

namespace Table.All

variable {T T' : Table}

theorem undef (h : T.All P) (name : Text) : (T.undef name).All P :=
  fun m hm => h m (List.mem_filter.1 hm).1

theorem define (h : T.All P) {m : Macro} (hm : ∀ t ∈ m.body, P t) (hd : T.define m = .ok T') :
    T'.All P := by
  unfold Table.define at hd
  simp only at hd
  split at hd
  · cases hd
  · cases hd
    exact List.forall_mem_cons.2 ⟨Token.all_trim hm, h.undef _⟩

end Table.All

namespace Directive

/-- What a line leaves of the white space that ends it has the property if the white space has. -/
def Cuts (P : Token → Prop) : Prop :=
  ∀ {t}, P t → t.isSpace = true → ∀ u ∈ lineBreak (some t), P u

/-- The tokens of a line that can get into the output or the macro table have the property: in
active text all of them, and otherwise the white space. -/
def Usable (P : Token → Prop) (st : State) (t : Token) : Prop :=
  st.active = true ∨ t.isSpace = true → P t

variable {st : State} {l : Line} {name : Token}

theorem Cuts.all_lineBreak (hP : Cuts P) {stop : Option Token}
    (h : ∀ t ∈ stop, Usable P st t ∧ t.isSpace = true) : ∀ u ∈ lineBreak stop, P u := by
  cases stop with
  | none =>
      intro u hu
      cases hu
  | some t =>
      obtain ⟨ht, hs⟩ := h t rfl
      exact hP (ht (.inr hs)) hs

namespace State

theorem all_definedCheck (h : ∀ t ∈ l.tokens, Q t) {b : Bool} {stop : Option Token}
    (hc : st.definedCheck name l = .ok (b, stop)) : ∀ t ∈ stop, Q t ∧ t.isSpace = true := by
  unfold definedCheck at hc
  split at hc
  · cases hc
  · rename_i hs
    have h₁ := (Line.keeps.takeSpace h hs).2
    split at hc
    · cases hc
    · rename_i hn
      obtain ⟨stop, hs, hc⟩ := except_bind_eq_ok hc
      cases hc
      exact Line.keeps.takeLineEnd (Line.keeps.takeName h₁ hn).2 hs

theorem all_conditionCheck (h : ∀ t ∈ l.tokens, Q t) {b : Bool} {stop : Option Token}
    (hc : st.conditionCheck name l = .ok (b, stop)) : ∀ t ∈ stop, Q t ∧ t.isSpace = true := by
  obtain ⟨⟨body, stop⟩, hs, hc⟩ := except_bind_eq_ok hc
  obtain ⟨b, -, hc⟩ := except_bind_eq_ok hc
  cases hc
  exact (Line.all_split h hs).2

theorem all_closingEnd (h : ∀ t ∈ l.tokens, Q t) {stop : Option Token}
    (hc : st.closingEnd l = .ok stop) : ∀ t ∈ stop, Q t ∧ t.isSpace = true := by
  unfold closingEnd at hc
  split at hc
  · exact Line.keeps.takeLineEnd h hc
  · exact Line.all_finish h hc

/-- After a line the macros have the property, and so has the line end if there is one. -/
structure Closes (P Q : Token → Prop) (r : State × Except Error (Option Token)) : Prop where
  table : r.1.table.All P
  stop : ∀ {stop}, r.2 = .ok stop → ∀ t ∈ stop, Q t ∧ t.isSpace = true

theorem closes_openGroup (hT : st.table.All P) (h : ∀ t ∈ l.tokens, Q t)
    {check : Except Error (Bool × Option Token)}
    (hc : ∀ {b stop}, check = .ok (b, stop) → ∀ t ∈ stop, Q t ∧ t.isSpace = true) :
    Closes P Q (st.openGroup name l check) := by
  unfold openGroup
  split
  · cases check with
    | error e => exact ⟨hT, fun hs => by cases hs⟩
    | ok y =>
        refine ⟨hT, fun hs => ?_⟩
        cases hs
        exact hc rfl
  · exact ⟨hT, Line.all_finish h⟩

theorem closes_orKeep (hT : st.table.All P) {x : Except Error (State × Option Token)}
    (hx : ∀ {st' stop}, x = .ok (st', stop) →
      st'.table.All P ∧ ∀ t ∈ stop, Q t ∧ t.isSpace = true) : Closes P Q (st.orKeep x) := by
  cases x with
  | error e => exact ⟨hT, fun hs => by cases hs⟩
  | ok y =>
      refine ⟨(hx rfl).1, fun hs => ?_⟩
      cases hs
      exact (hx rfl).2

theorem all_changeTable (hT : st.table.All P) (h : ∀ t ∈ l.tokens, Q t)
    {change : Except Error (Table × Option Token)}
    (hc : st.active = true → ∀ {T stop}, change = .ok (T, stop) →
      T.All P ∧ ∀ t ∈ stop, Q t ∧ t.isSpace = true) {st' : State} {stop : Option Token}
    (hs : st.changeTable l change = .ok (st', stop)) :
    st'.table.All P ∧ ∀ t ∈ stop, Q t ∧ t.isSpace = true := by
  unfold changeTable at hs
  split at hs
  · rename_i ha
    obtain ⟨⟨T, stop⟩, hx, hs⟩ := except_map_eq_ok hs
    cases hs
    exact hc ha hx
  · obtain ⟨stop, hx, hs⟩ := except_map_eq_ok hs
    cases hs
    exact ⟨hT, Line.all_finish h hx⟩

theorem closes_run (hT : st.table.All P) (h : ∀ t ∈ l.tokens, Usable P st t) (d : Directive) :
    Closes P (Usable P st) (st.run d name l) := by
  cases d with
  | ifHolds => exact closes_openGroup hT h (all_conditionCheck h)
  | ifDefined => exact closes_openGroup hT h (all_definedCheck h)
  | ifNotDefined =>
      refine closes_openGroup hT h fun {b stop} hc => ?_
      obtain ⟨⟨c, stop⟩, hc, he⟩ := except_map_eq_ok hc
      cases he
      exact all_definedCheck h hc
  | elseIf =>
      refine closes_orKeep hT fun {st' stop} hx => ?_
      obtain ⟨⟨body, stop⟩, hs, hx⟩ := except_bind_eq_ok hx
      simp only at hx
      split at hx
      all_goals
        obtain ⟨cond, -, hx⟩ := except_bind_eq_ok hx
        obtain ⟨groups, -, hx⟩ := except_bind_eq_ok hx
        cases hx
        exact ⟨hT, (Line.all_split h hs).2⟩
  | otherwise | endIf =>
      refine closes_orKeep hT fun {st' stop} hx => ?_
      obtain ⟨stop, hs, hx⟩ := except_bind_eq_ok hx
      obtain ⟨groups, -, hx⟩ := except_bind_eq_ok hx
      cases hx
      exact ⟨hT, all_closingEnd h hs⟩
  | define =>
      refine closes_orKeep hT (all_changeTable hT h fun ha {T stop} hx => ?_)
      obtain ⟨⟨m, stop⟩, hr, hx⟩ := except_bind_eq_ok hx
      obtain ⟨T, hd, hx⟩ := except_bind_eq_ok hx
      cases hx
      obtain ⟨hm, hstop⟩ := Definition.all_read h hr
      exact ⟨hT.define (fun t ht => hm t ht (.inl ha)) hd, hstop⟩
  | undef =>
      refine closes_orKeep hT (all_changeTable hT h fun _ {T stop} hx => ?_)
      obtain ⟨⟨name, l₁⟩, hr, hx⟩ := except_bind_eq_ok hx
      obtain ⟨stop, hs, hx⟩ := except_bind_eq_ok hx
      cases hx
      exact ⟨hT.undef _,
        Line.keeps.takeLineEnd (Definition.keeps_readName Line.keeps h hr).2 hs⟩

end State

/-- Executing a line keeps the property of the macros, and the tokens that take the place of the
line have it. -/
theorem all_execute (hP : Cuts P) (keep : Bool) {hash : Token} (hhash : Usable P st hash)
    (hT : st.table.All P) (h : ∀ t ∈ l.tokens, Usable P st t) :
    (execute keep hash l st).1.table.All P ∧
      ∀ {out}, (execute keep hash l st).2 = .ok out → ∀ t ∈ out, P t := by
  have hnil : ∀ t ∈ ([] : List Token), P t := by simp
  have hfront : ∀ t ∈ l.tokens.takeWhile Token.isGap, Usable P st t :=
    fun t ht => h t ((List.takeWhile_prefix _).subset ht)
  have hback : ∀ t ∈ l.tokens.dropWhile Token.isGap, Usable P st t :=
    fun t ht => h t ((List.dropWhile_suffix _).subset ht)
  unfold execute
  split
  · split
    · exact ⟨hT, fun {out} ho => by cases ho; exact hnil⟩
    · exact ⟨hT, fun {out} ho => by cases ho⟩
  · rename_i name rest hd
    rw [hd] at hback
    obtain ⟨hname, hrest⟩ := List.forall_mem_cons.1 hback
    split
    · rename_i hend
      have hspace : name.isSpace = true := (Bool.and_eq_true_iff.1 hend).1
      refine ⟨hT, fun {out} ho => ?_⟩
      cases ho
      split
      · exact hP (hname (.inr hspace)) hspace
      · exact hnil
    · split
      · unfold otherLine
        split
        · exact ⟨hT, fun {out} ho => by cases ho⟩
        · rename_i body stop hs
          obtain ⟨hbody, hstop⟩ := Line.all_split hrest hs
          split
          · rename_i ha
            have ha : st.active = true := (Bool.and_eq_true_iff.1 ha).1
            refine ⟨hT, fun {out} ho => ?_⟩
            cases ho
            intro t ht
            simp only [List.cons_append, List.mem_cons, List.mem_append, Option.mem_toList,
              or_assoc] at ht
            rcases ht with rfl | ht | rfl | ht | ht
            · exact hhash (.inl ha)
            · exact hfront t ht (.inl ha)
            · exact hname (.inl ha)
            · exact hbody t ht (.inl ha)
            · exact (hstop t ht).1 (.inl ha)
          · refine ⟨hT, fun {out} ho => ?_⟩
            cases ho
            split
            · exact hP.all_lineBreak hstop
            · exact hnil
      · rename_i d _
        have hrun : State.Closes P (Usable P st) (st.run d name { l with tokens := rest }) :=
          State.closes_run hT hrest d
        split
        · rename_i hr
          rw [hr] at hrun
          exact ⟨hrun.table, fun {out} ho => by cases ho⟩
        · rename_i hr
          rw [hr] at hrun
          refine ⟨?_, fun {out} ho => ?_⟩
          · simp only
            split
            · exact hrun.table
            · exact hrun.table
          · cases ho
            split
            · exact hP.all_lineBreak (hrun.stop rfl)
            · exact hnil

end Directive

/-- The tokens of a strict lexer have the property, and the white space of every lexer. -/
def Lexer.Gives (P : Token → Prop) : Prop :=
  ∀ {l l₁ : Lexer} {t : Token}, Glyph.Read l.rest → l.pull = .token t l₁ →
    l.tolerant = false ∨ t.isSpace = true → P t

theorem Lexer.read_of_pull {l l₁ : Lexer} {t : Token} (hr : Glyph.Read l.rest)
    (h : l.pull = .token t l₁) : Glyph.Read l₁.rest := by
  unfold pull at h
  split at h
  · cases h
  · rename_i g gs hg
    split at h
    · rename_i x hx
      cases h
      rw [hg, ← (cuts_lexeme hx).whole, Cut.whole] at hr
      exact hr.of_append
    · cases h

theorem Line.all_read (hL : Lexer.Gives P) {l : Lexer} (hr : Glyph.Read l.rest) :
    (∀ t ∈ (Line.read l).1.tokens, l.tolerant = false ∨ t.isSpace = true → P t) ∧
      Glyph.Read (Line.read l).2.rest := by
  fun_induction Line.read l with
  | case1 l e l₁ hp =>
      rw [Lexer.eq_of_stop hp]
      exact ⟨by simp, hr⟩
  | case2 l t l₁ hp ht =>
      exact ⟨List.forall_mem_singleton.2 (hL hr hp), Lexer.read_of_pull hr hp⟩
  | case3 l t l₁ hp ht line l₂ hread ih =>
      obtain ⟨htokens, hrest⟩ := ih (Lexer.read_of_pull hr hp)
      rw [hread, Lexer.tolerant_of_pull hp] at htokens
      rw [hread] at hrest
      exact ⟨List.forall_mem_cons.2 ⟨hL hr hp, htokens⟩, hrest⟩

namespace ActiveText

open Directive

/-- The input has been read from a text in the mode that its directives ask for; the macros and
the tokens waiting have the property. -/
structure All (P : Token → Prop) (x : ActiveText Lexer) : Prop where
  input : Glyph.Read x.input.rest
  mode : x.input.tolerant = !x.state.active
  table : x.state.table.All P
  pending : ∀ t ∈ x.pending, P t

variable {x : ActiveText Lexer}

theorem All.ofText {T : Table} (hT : T.All P) (src : Text) (keepUnknown : Bool) :
    (ofSource (Lexer.ofText src) T keepUnknown).All P :=
  ⟨⟨.start, src, rfl⟩, rfl, hT, fun _ ht => nomatch ht⟩

theorem All.usable (h : x.All P) {t : Token}
    (ht : x.input.tolerant = false ∨ t.isSpace = true → P t) : Usable P x.state t := by
  intro hu
  refine ht (hu.imp_left fun ha => ?_)
  rw [h.mode, ha]
  rfl

/-- What is handed out has the property, and all that is left has. -/
theorem all_pull (hP : Cuts P) (hL : Lexer.Gives P) (h : x.All P) :
    (∀ t y, x.pull = .token t y → P t) ∧ x.pull.state.All P := by
  -- What a directive line does to a text that starts with it.
  have hline {x : ActiveText Lexer} (h : x.All P) {t : Token} {s s' : Lexer} {line : Line}
      (hp : x.input.pull = .token t s) (hr : Line.read s = (line, s')) {state : State}
      {r : Except Error (List Token)}
      (hx : execute x.keepUnknown t line x.state = (state, r)) :
      Glyph.Read s'.rest ∧ s'.tolerant = x.input.tolerant ∧ state.table.All P ∧
        ∀ {out}, r = .ok out → ∀ t ∈ out, P t := by
    have htol : s.tolerant = x.input.tolerant := Lexer.tolerant_of_pull hp
    obtain ⟨htokens, hrest⟩ := Line.all_read hL (Lexer.read_of_pull h.input hp)
    have hmode := Line.tolerant_read s
    rw [hr, htol] at hmode
    rw [hr] at hrest
    rw [hr, htol] at htokens
    have hall := all_execute hP x.keepUnknown (h.usable (hL h.input hp)) h.table
      fun u hu => h.usable (htokens u hu)
    rw [hx] at hall
    exact ⟨hrest, hmode, hall.1, hall.2⟩
  fun_induction pull x with
  | case1 x t ts hpend =>
      have hpending := h.pending
      rw [hpend] at hpending
      obtain ⟨ht, hts⟩ := List.forall_mem_cons.1 hpending
      refine ⟨fun u y hp => ?_, h.input, h.mode, h.table, hts⟩
      cases hp
      exact ht
  | case2 x hpend s hs | case3 x hpend e s hs =>
      cases Lexer.eq_of_stop hs
      exact ⟨fun u y hp => (by cases hp), h.input, h.mode, h.table, h.pending⟩
  | case4 x hpend t s hs _ line s' hr state e hx =>
      obtain ⟨hrest, hmode, htable, -⟩ := hline h hs hr hx
      refine ⟨fun u y hp => (by cases hp), hrest, ?_, htable, h.pending⟩
      exact hmode.trans (h.mode.trans (congrArg Bool.not (State.active_of_execute_error hx).symm))
  | case5 x hpend t s hs _ line s' hr state u us hx =>
      obtain ⟨hrest, -, htable, hout⟩ := hline h hs hr hx
      obtain ⟨hu, hus⟩ := List.forall_mem_cons.1 (hout rfl)
      refine ⟨fun v y hp => ?_, hrest, rfl, htable, hus⟩
      cases hp
      exact hu
  | case6 x hpend t s hs _ line s' hr state hx ih =>
      obtain ⟨hrest, -, htable, -⟩ := hline h hs hr hx
      exact ih ⟨hrest, rfl, htable, h.pending⟩
  | case7 x hpend t s hs _ ha =>
      have hmode : s.tolerant = !x.state.active := (Lexer.tolerant_of_pull hs).trans h.mode
      refine ⟨fun u y hp => ?_, Lexer.read_of_pull h.input hs, hmode, h.table, h.pending⟩
      cases hp
      exact h.usable (hL h.input hs) (.inl ha)
  | case8 x hpend t s hs _ _ ih =>
      have hmode : s.tolerant = !x.state.active := (Lexer.tolerant_of_pull hs).trans h.mode
      exact ih ⟨Lexer.read_of_pull h.input hs, hmode, h.table, h.pending⟩

theorem keeps (hP : Cuts P) (hL : Lexer.Gives P) : Source.Keeps P (All P) :=
  .of_pull (all_pull hP hL) All.table

end ActiveText
end CPreprocessor

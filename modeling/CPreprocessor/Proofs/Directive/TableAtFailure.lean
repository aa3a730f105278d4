import CPreprocessor.Proofs.Directive.Balance
import CPreprocessor.Proofs.Directive.Seam
import CPreprocessor.Proofs.Directive.Selection

/-!
The macros of a text that fails. Reading a text goes from token to token and from line to line.
A line that is executed changes the table only if it is one of `#define` or `#undef` in active
text, and a line that fails changes nothing, wherever it fails. So the table that is left is the
one that the definitions before the failure have made.
-/

namespace CPreprocessor

open Directive
open Source (Runs)

/-- The line ends with its line end or with the input, or it breaks off. -/
theorem Line.ending_read_or_broken {σ : Type} [Feed σ] (s : σ) :
    (Line.read s).1.ending = .eof ∨ (Line.read s).1.Broken := by
  fun_induction Line.read s with
  | case1 s e s₁ hp =>
      cases e with
      | eof => exact .inl rfl
      | fault e => exact .inr ⟨⟨e, rfl⟩, fun t ht => by cases ht⟩
  | case2 => exact .inl rfl
  | case3 s t s₁ hp ht l s₂ hr ih =>
      rw [hr] at ih
      exact ih.imp id fun hb => hb.cons (Bool.eq_false_iff.2 ht)

namespace HashLine

variable {l : HashLine} {keep : Bool} {st st' : State}

/-- The line defines or removes a macro. -/
def isDefinition (l : HashLine) : Bool :=
  l.heading?.any fun (d, _, _) => d = .undef || d = .define

/-- The line, if it defines or removes a macro in active text. -/
def definitions (active : Bool) (l : HashLine) : List HashLine :=
  if active && l.isDefinition then [l] else []

/-- The table after lines that belong to no group. -/
def changeAll (ls : List HashLine) (T : Table) : Except Error Table :=
  ls.foldlM (fun T l => l.change T) T

theorem changeAll_append {ls ls' : List HashLine} {T T₁ : Table}
    (h : changeAll ls T = .ok T₁) : changeAll (ls ++ ls') T = changeAll ls' T₁ := by
  rw [changeAll, List.foldlM_append, ← changeAll, h]
  rfl

theorem changeAll_singleton (l : HashLine) (T : Table) : changeAll [l] T = l.change T := by
  rw [changeAll, List.foldlM_cons]
  cases l.change T <;> rfl

theorem heading?_eq {name : Token} {rest : List Token}
    (h : l.tokens.dropWhile Token.isGap = name :: rest) (hn : ¬name.isLineEnd = true) :
    l.heading? = (ofName? name.text).map fun d => (d, name, rest) := by
  simp only [heading?, h, if_neg hn]

/-- What a line of `#define` or `#undef` makes of the table when it is executed. -/
theorem change_of_run {d : Directive} {name : Token} {rest : List Token} {stop : Option Token}
    (h : l.heading? = some (d, name, rest)) (hd : d.role = .plain)
    (hr : st.run d name ⟨rest, .eof⟩ = (st', .ok stop)) :
    if st.active then l.change st.table = .ok st'.table else st'.table = st.table := by
  rw [run_plain h hd] at hr
  have hok := eq_ok_of_orKeep hr
  unfold State.changeTable at hok
  split at hok
  · rename_i ha
    rw [if_pos ha]
    obtain ⟨⟨T, stop'⟩, hT, hst⟩ := except_map_eq_ok hok
    obtain ⟨T', hT', heq⟩ := except_map_eq_ok hT
    cases heq
    cases hst
    exact hT'
  · rename_i ha
    rw [if_neg ha]
    obtain ⟨stop', -, hst⟩ := except_map_eq_ok hok
    cases hst
    rfl

/-- A line that is executed changes the table if it is a definition in active text, and else it
does not. -/
theorem changeAll_of_execute {out : List Token}
    (hx : execute keep l.hash ⟨l.tokens, .eof⟩ st = (st', .ok out)) :
    changeAll (l.definitions st.active) st.table = .ok st'.table := by
  have hsame (hl : l.isDefinition = false) (ht : st'.table = st.table) :
      changeAll (l.definitions st.active) st.table = .ok st'.table := by
    rw [definitions, hl, Bool.and_false, ht]
    rfl
  have hplain (hl : l.isDefinition = true)
      (hc : if st.active then l.change st.table = .ok st'.table else st'.table = st.table) :
      changeAll (l.definitions st.active) st.table = .ok st'.table := by
    rw [definitions, hl, Bool.and_true]
    split at hc
    · rename_i ha
      rw [if_pos ha, changeAll_singleton, hc]
    · rename_i ha
      rw [if_neg ha, hc]
      rfl
  have hcase := execute_cases keep l.hash ⟨l.tokens, .eof⟩ st
  rw [hx] at hcase
  cases hcase with
  | ended hd _ => exact hsame (by simp only [isDefinition, heading?, hd]; rfl) rfl
  | blank hd hn => exact hsame (by simp only [isDefinition, heading?, hd, if_pos hn]; rfl) rfl
  | kept hd hn ho _ _ | dropped hd hn ho _ _ =>
      exact hsame (by rw [isDefinition, heading?_eq hd hn, ho]; rfl) rfl
  | @done name rest d after stop hd hn ho hr =>
      have hh := heading?_eq hd hn
      rw [ho] at hh
      have hrecord : (if (st.active || d.isConditional) = true then after.record name
          else after).table = after.table := by
        split <;> rfl
      have hafter : (st.run d name ⟨rest, .eof⟩).1.table = after.table := by rw [hr]
      cases d with
      | ifHolds | ifDefined | ifNotDefined | elseIf | otherwise | endIf =>
          refine hsame (by rw [isDefinition, hh]; rfl) ?_
          rw [hrecord, ← hafter]
          exact State.table_run_of_isConditional rfl
      | define | undef =>
          have hchange := change_of_run hh rfl hr
          rw [← hrecord] at hchange
          exact hplain (by rw [isDefinition, hh]; rfl) hchange

end HashLine

/-- A line that fails leaves the table as it is. -/
theorem Directive.table_of_execute_error {keep : Bool} {hash : Token} {l : Line} {st st' : State}
    {e : Error} (hx : execute keep hash l st = (st', .error e)) : st'.table = st.table := by
  have hcase := execute_cases keep hash l st
  rw [hx] at hcase
  cases hcase with
  | broken | unread => rfl
  | @failed name rest d after e hd hn ho hr =>
      have hfst : st' = (st.run d name { l with tokens := rest }).1 := by rw [hr]
      cases d with
      | ifHolds | ifDefined | ifNotDefined | elseIf | otherwise | endIf =>
          rw [hfst]
          exact State.table_run_of_isConditional rfl
      | define | undef => rw [(State.of_orKeep_error hr).1]

namespace ActiveText

variable {σ : Type} [Feed σ]

/-- A step of reading a text: a token is taken, or a directive line is executed. The list has the
line if it defines or removes a macro in active text. -/
inductive Step : ActiveText σ → List HashLine → ActiveText σ → Prop where
  | pending {x t ts} : x.pending = t :: ts → Step x [] { x with pending := ts }
  | text {x t s} : x.pending = [] → Source.pull x.input = .token t s →
      ¬(x.lineStart && t.isHash) = true →
      Step x [] { x with input := s, lineStart := startsLine x.lineStart t }
  | line {x t s l s₁ state out} : x.pending = [] → Source.pull x.input = .token t s →
      (x.lineStart && t.isHash) = true → Line.read s = (l, s₁) →
      execute x.keepUnknown t l x.state = (state, .ok out) →
      Step x (HashLine.definitions x.state.active ⟨t, l.tokens⟩) { x with
        input := Feed.tolerate (!state.active) s₁, state, lineStart := true, pending := out }

/-- Steps from one state of a text to another, with the lines that define or remove macros. -/
inductive Steps : ActiveText σ → List HashLine → ActiveText σ → Prop where
  | refl (x) : Steps x [] x
  | head {x y z ls ls'} : Step x ls y → Steps y ls' z → Steps x (ls ++ ls') z

/-- Reading fails with the error and leaves the second state: the source fails, or the input ends
inside a group, or a directive line fails. -/
inductive Fails : ActiveText σ → Error → ActiveText σ → Prop where
  | source {x e s} : x.pending = [] → Source.pull x.input = .stop (.fault e) s →
      Fails x e { x with input := s }
  | unclosed {x e s} : x.pending = [] → Source.pull x.input = .stop .eof s →
      x.state.groups.atEnd = .fault e → Fails x e { x with input := s }
  | line {x t s l s₁ state e} : x.pending = [] → Source.pull x.input = .token t s →
      (x.lineStart && t.isHash) = true → Line.read s = (l, s₁) →
      execute x.keepUnknown t l x.state = (state, .error e) →
      Fails x e { x with input := s₁, state, lineStart := false }

/-- Asking for a token leads to the state behind it, or to the failure. -/
inductive Leads (x : ActiveText σ) : Pull (ActiveText σ) → Prop where
  | token {ls t y} : Steps x ls y → Leads x (.token t y)
  | eof {y} : Leads x (.stop .eof y)
  | fault {ls y e z} : Steps x ls y → Fails y e z → Leads x (.stop (.fault e) z)

variable {x y z : ActiveText σ} {ls ls' : List HashLine} {e : Error}

theorem Step.changeAll_table (h : Step x ls y) :
    HashLine.changeAll ls x.state.table = .ok y.state.table := by
  cases h with
  | pending | text => rfl
  | @line t s l s₁ state out _ _ _ hr hx =>
      -- A line that broke off would not have been executed.
      have hend : l.ending = .eof := by
        have hread := Line.ending_read_or_broken s
        rw [hr] at hread
        refine hread.resolve_right fun hb => ?_
        have hnone := hb.execute x.keepUnknown t x.state
        rw [hx] at hnone
        cases hnone
      obtain ⟨ts, ending⟩ := l
      cases hend
      exact HashLine.changeAll_of_execute (l := ⟨t, ts⟩) hx

theorem Steps.changeAll_table (h : Steps x ls y) :
    HashLine.changeAll ls x.state.table = .ok y.state.table := by
  induction h with
  | refl => rfl
  | head hs _ ih => rw [HashLine.changeAll_append hs.changeAll_table, ih]

theorem Fails.table_eq (h : Fails x e z) : z.state.table = x.state.table := by
  cases h with
  | source | unclosed => rfl
  | line _ _ _ _ hx => exact table_of_execute_error hx

theorem Steps.trans (h : Steps x ls y) (h' : Steps y ls' z) : Steps x (ls ++ ls') z := by
  induction h with
  | refl => exact h'
  | head hs _ ih =>
      rw [List.append_assoc]
      exact .head hs (ih h')

theorem Leads.head {p : Pull (ActiveText σ)} (hs : Step x ls y) (h : Leads y p) : Leads x p := by
  cases h with
  | token hst => exact .token (.head hs hst)
  | eof => exact .eof
  | fault hst hf => exact .fault (.head hs hst) hf

theorem leads_pull (x : ActiveText σ) : Leads x x.pull := by
  fun_induction pull x with
  | case1 x t ts hp => exact .token (.head (.pending hp) (.refl _))
  | case2 x hp s hs =>
      cases he : x.state.groups.atEnd with
      | eof => exact .eof
      | fault e => exact .fault (.refl x) (.unclosed hp hs he)
  | case3 x hp e s hs => exact .fault (.refl x) (.source hp hs)
  | case4 x hp t s hs ht line s₁ hr state e hx => exact .fault (.refl x) (.line hp hs ht hr hx)
  | case5 x hp t s hs ht line s₁ hr state u us hx =>
      exact .token (.head (.line hp hs ht hr hx) (.head (.pending rfl) (.refl _)))
  | case6 x hp t s hs ht line s₁ hr state hx ih =>
      rw [hp] at ih ⊢
      exact ih.head (.line hp hs ht hr hx)
  | case7 x hp t s hs ht ha => exact .token (.head (.text hp hs ht) (.refl _))
  | case8 x hp t s hs ht ha ih => exact ih.head (.text hp hs ht)

/-- A text that fails has come to its failure by steps. -/
theorem exists_steps_of_runs {out : List Token} (h : Runs x out (.fault e) z) :
    ∃ ls y, Steps x ls y ∧ Fails y e z := by
  generalize hend : End.fault e = f at h
  induction h with
  | @stop x f z hp =>
      cases hend
      have hpull := leads_pull x
      rw [show x.pull = _ from hp] at hpull
      cases hpull with
      | fault hst hf => exact ⟨_, _, hst, hf⟩
  | @token x x₁ z t out f hp _ ih =>
      have hpull := leads_pull x
      rw [show x.pull = _ from hp] at hpull
      cases hpull with
      | token hst =>
          obtain ⟨ls, y, hst', hf⟩ := ih hend
          exact ⟨_, y, hst.trans hst', hf⟩

/-- The macros of a text that fails are those that the lines of `#define` and `#undef` have made
which were executed in active text before the failure. What fails, be it the source, the end of
input or a directive line, adds, replaces and removes no macro. -/
theorem table_of_failure (s : σ) (T : Table) (keepUnknown : Bool) (e : Error)
    (h : (TokenStream.drain (Buffered.ofSource (ofSource s T keepUnknown))).1.error = some e) :
    ∃ ls x z, (TokenStream.drain (Buffered.ofSource (ofSource s T keepUnknown))).2.source = z ∧
      Steps (ofSource s T keepUnknown) ls x ∧ Fails x e z ∧
      HashLine.changeAll ls T = .ok z.state.table ∧ z.state.table = x.state.table := by
  obtain ⟨out, f, z, hr⟩ := Runs.exists_runs (ofSource s T keepUnknown)
  rw [hr.drain] at h ⊢
  cases f with
  | eof => cases h
  | fault f =>
      cases h
      obtain ⟨ls, x, hst, hf⟩ := exists_steps_of_runs hr
      refine ⟨ls, x, z, rfl, hst, hf, ?_, hf.table_eq⟩
      rw [hf.table_eq]
      exact hst.changeAll_table

namespace Sample

/-- A definition in skipped text, and one that is not read to its end because a comment begins
behind it that is not closed. -/
def openComment : Text :=
  ascii "#define A 1\n#ifndef A\n#define B\n#endif\n#undef A\n#define C 2\n#define A 3\n/* "

end Sample

open Sample in
theorem table_of_failure_openComment :
    ∃ e ls x z, (TokenStream.drain (Buffered.ofSource
        (ofSource (Lexer.ofText openComment) {} false))).1.error = some e ∧
      Steps (ofSource (Lexer.ofText openComment) {} false) ls x ∧ Fails x e z ∧
      HashLine.changeAll ls {} = .ok z.state.table ∧
      z.state.table.entries.map Macro.name = [ascii "C"] := by
  have hcheck : (Source.runWithin (some ∘ Source.pull) 9
      (ofSource (Lexer.ofText openComment) {} false)).any (fun r => r.2.1.error?.isSome ∧
        r.2.2.state.table.entries.map Macro.name = [ascii "C"]) = true := by
    decide +kernel
  obtain ⟨⟨out, f, z⟩, hr, hz⟩ := (Option.any_eq_true _ _).1 hcheck
  obtain ⟨hf, hnames⟩ := of_decide_eq_true hz
  obtain ⟨e, he⟩ := Option.isSome_iff_exists.1 hf
  have hdrain := (Source.runs_of_runWithin (fun hp => Option.some.inj hp) hr).drain
  have herror : (TokenStream.drain (Buffered.ofSource
      (ofSource (Lexer.ofText openComment) {} false))).1.error = some e := by
    rw [hdrain]
    exact he
  obtain ⟨ls, x, z', hsource, hsteps, hfails, hchange, -⟩ :=
    table_of_failure (Lexer.ofText openComment) {} false e herror
  rw [hdrain] at hsource
  obtain rfl : z = z' := hsource
  exact ⟨e, ls, x, z, herror, hsteps, hfails, hchange, hnames⟩

end ActiveText
end CPreprocessor

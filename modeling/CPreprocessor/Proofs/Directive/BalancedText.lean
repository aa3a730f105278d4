import CPreprocessor.Proofs.Directive.Balance
import CPreprocessor.Proofs.Macro.Evaluation

/-!
Texts are accepted when their conditional directives are well nested. The open groups are followed
from the first token of a text to the last, or to the directive that is out of place. They are at
every moment those that the tokens read so far have opened and not closed, in skipped text as in
kept text.
-/

namespace CPreprocessor

open Directive
open Source (Runs)

theorem conditionals_nil : conditionals [] = [] := by
  rw [conditionals, Item.ofTokens]
  rfl

namespace Item.Cut

variable {pre : List Token} {start : Bool} {t : Token}

theorem conditionals_append (h : Cut pre start) (us : List Token) : conditionals (pre ++ us) =
    conditionals pre ++ (ofTokens start us).filterMap Item.conditional? := by
  rw [conditionals, h, List.filterMap_append, conditionals]

theorem conditionals_text (h : Cut pre start) (ht : ¬(start && t.isHash) = true) :
    conditionals (pre ++ [t]) = conditionals pre := by
  rw [conditionals, h.ofTokens_text ht, List.filterMap_append, conditionals]
  exact List.append_nil _

theorem conditionals_line (h : Cut pre start) (ht : (start && t.isHash) = true)
    (ts : List Token) : conditionals (pre ++ t :: (Line.read ts).1.tokens) =
      conditionals pre ++ (HashLine.conditional? ⟨t, (Line.read ts).1.tokens⟩).toList := by
  rw [conditionals, h.ofTokens_line ht, List.filterMap_append, conditionals]
  cases hc : HashLine.conditional? ⟨t, (Line.read ts).1.tokens⟩ <;> simp [Item.conditional?, hc]

end Item.Cut

namespace ActiveText

variable {σ : Type} {seq : σ → List Token} {ts pre : List Token} {x : ActiveText σ}

/-- Of the tokens `ts` those of `pre` have been read, and the directives among them are done. -/
structure HasRead (seq : σ → List Token) (ts pre : List Token) (x : ActiveText σ) : Prop where
  whole : pre ++ seq x.input = ts
  agrees : x.state.Agrees (conditionals pre)
  cut : seq x.input = [] ∨ Item.Cut pre x.lineStart

/-- As many groups are open as the tokens read from `ts` have opened and not closed, and so it
was after each directive that is recorded. -/
structure Balanced (seq : σ → List Token) (ts : List Token) (x : ActiveText σ) : Prop where
  depth_eq : ∃ pre, pre ++ seq x.input = ts ∧ x.depth = openGroups (conditionals pre)
  recorded {ev : Event} {es : List Event} : ev :: es <:+ x.state.events →
    recorded (ev :: es) <+: conditionals ts ∧ ev.depth = openGroups (recorded (ev :: es))

namespace HasRead

theorem start (s : σ) (T : Table) (keep : Bool) :
    HasRead seq (seq s) [] (ofSource s T keep) where
  whole := rfl
  agrees := by
    rw [conditionals_nil]
    refine ⟨rfl, rfl, fun {ev es} hs => ?_⟩
    cases List.suffix_nil.1 hs
  cut := .inr Item.cut_nil

theorem conditionals_isPrefix (h : HasRead seq ts pre x) :
    conditionals pre <+: conditionals ts := by
  rw [← h.whole]
  rcases h.cut with hn | hc
  · simp [hn]
  · rw [hc.conditionals_append]
    exact List.prefix_append _ _

theorem recorded_isPrefix (h : HasRead seq ts pre x) {es : List Event}
    (hs : es <:+ x.state.events) : recorded es <+: conditionals ts := by
  have hp : recorded es <+: recorded x.state.events :=
    hs.reverse.filterMap _
  rw [h.agrees.recorded_eq] at hp
  exact hp.trans h.conditionals_isPrefix

theorem balanced (h : HasRead seq ts pre x) : Balanced seq ts x where
  depth_eq := ⟨pre, h.whole, h.agrees.length_groups⟩
  recorded hs := ⟨h.recorded_isPrefix hs, h.agrees.depth_eq hs⟩

end HasRead

/-- What the next token of a text is like. A text that ends has well nested directives, and one
with a nesting error does not. -/
inductive Pulled (seq : σ → List Token) (ts : List Token) : Pull (ActiveText σ) → Prop where
  | token {us t y} : HasRead seq ts us y → Pulled seq ts (.token t y)
  | eof {y} : Balanced seq ts y → WellNested (conditionals ts) → Pulled seq ts (.stop .eof y)
  | nesting {e y} : Balanced seq ts y → ¬WellNested (conditionals ts) → e.kind = .nesting →
      Pulled seq ts (.stop (.fault e) y)
  | other {e y} : e.kind ≠ .nesting → Pulled seq ts (.stop (.fault e) y)

/-- At the end of input. -/
theorem HasRead.pulled_end (h : HasRead seq ts pre x) (hn : seq x.input = []) :
    Pulled seq ts (.stop x.state.groups.atEnd x) := by
  have hpre : pre = ts := by rw [← h.whole, hn, List.append_nil]
  have hflags := h.agrees.flags_eq
  rw [hpre] at hflags
  cases hg : x.state.groups with
  | nil =>
      rw [State.flags, hg] at hflags
      exact .eof h.balanced (enterAll_eq_some_nil_iff.1 hflags)
  | cons g gs =>
      refine .nesting h.balanced (fun hw => ?_) rfl
      rw [enterAll_eq_some_nil_iff.2 hw, State.flags, hg] at hflags
      cases hflags

section Step

variable [Feed σ] {s s₁ : σ} {t : Token}

theorem HasRead.cut_of_token (hseq : Feed.Presents seq) (h : HasRead seq ts pre x)
    (hs : Source.pull x.input = .token t s) :
    Item.Cut pre x.lineStart ∧ pre ++ t :: seq s = ts := by
  have ht := hseq.token hs
  refine ⟨h.cut.resolve_left (by simp [ht]), ?_⟩
  rw [← ht, h.whole]

theorem HasRead.text (hseq : Feed.Presents seq) (h : HasRead seq ts pre x)
    (hs : Source.pull x.input = .token t s) (ht : ¬(x.lineStart && t.isHash) = true) :
    HasRead seq ts (pre ++ [t])
      { x with input := s, lineStart := startsLine x.lineStart t } := by
  obtain ⟨hc, hw⟩ := h.cut_of_token hseq hs
  refine ⟨?_, ?_, .inr (hc.text ht)⟩
  · rw [List.append_assoc]
    exact hw
  · rw [hc.conditionals_text ht]
    exact h.agrees

variable {l : Line} {state : State}

theorem HasRead.line (hseq : Feed.Presents seq) (h : HasRead seq ts pre x)
    (hs : Source.pull x.input = .token t s) (ht : (x.lineStart && t.isHash) = true)
    (hr : Line.read s = (l, s₁)) {out : List Token}
    (hx : execute x.keepUnknown t l x.state = (state, .ok out)) (pending : List Token) :
    HasRead seq ts (pre ++ t :: l.tokens)
      { x with
        input := Feed.tolerate (!state.active) s₁, state, lineStart := true, pending } := by
  obtain ⟨hc, hw⟩ := h.cut_of_token hseq hs
  have hread : Line.read (seq s) = (l, seq s₁) := by
    rcases Line.read_presented hseq s with ⟨hb, -⟩ | hread
    · rw [hr] at hb
      have := hb.execute x.keepUnknown t x.state
      rw [hx] at this
      cases this
    · rwa [hr] at hread
  have htokens : l.tokens ++ seq s₁ = seq s := by
    have := Line.tokens_read (seq s)
    rwa [hread] at this
  refine ⟨?_, ?_, ?_⟩
  · rw [hseq.tolerate, List.append_assoc, List.cons_append, htokens]
    exact hw
  · have := hc.conditionals_line ht (seq s)
    rw [hread] at this
    rw [this]
    exact agrees_of_execute h.agrees hx
  · have := hc.line ht (seq s)
    rw [hread] at this
    rwa [hseq.tolerate]

/-- A line that fails on account of its nesting cannot be mended by what comes after it. -/
theorem HasRead.pulled_failed_line (hseq : Feed.Presents seq) (h : HasRead seq ts pre x)
    (hs : Source.pull x.input = .token t s) (ht : (x.lineStart && t.isHash) = true)
    (hr : Line.read s = (l, s₁)) {e : Error}
    (hx : execute x.keepUnknown t l x.state = (state, .error e)) :
    Pulled seq ts (.stop (.fault e) { x with input := s₁, state, lineStart := false }) := by
  by_cases hk : e.kind = .nesting
  · obtain ⟨hc, hw⟩ := h.cut_of_token hseq hs
    have hread := Line.read_presented hseq s
    rw [hr] at hread
    have havoid : l.EndAvoids .nesting := by
      intro f hf
      rcases hread with ⟨-, f', hf', hk⟩ | hread
      · cases hf.symm.trans hf'
        simp [hk]
      · have := Line.ending_read (seq s)
        rw [hread, hf] at this
        cases this
    obtain ⟨⟨d, hd, hn⟩, hb, rfl⟩ := misplaced_of_execute havoid hx hk
    have hread : Line.read (seq s) = (l, seq s₁) := hread.resolve_left fun h => hb h.1
    have htokens := Line.tokens_read (seq s)
    have hcond := hc.conditionals_line ht (seq s)
    rw [hread] at htokens hcond
    rw [hd, Option.toList_some] at hcond
    refine .nesting ⟨⟨pre ++ t :: l.tokens, ?_, ?_⟩, h.balanced.recorded⟩
      (fun hwell => ?_) hk
    · rw [List.append_assoc, List.cons_append]
      exact (congrArg (fun us => pre ++ t :: us) htokens).trans hw
    · rw [hcond, openGroups_append, ← h.agrees.length_groups, ← State.length_flags,
        List.foldl_cons, openAfter_of_enter_eq_none hn]
      exact (State.length_flags _).symm
    · have hall := enterAll_eq_some_nil_iff.2 hwell
      have hitem : Item.conditional? (.line ⟨t, l.tokens⟩) = some d := hd
      rw [← hw, hc.conditionals_append, enterAll_append, h.agrees.flags_eq, Option.bind_some,
        Item.ofTokens_line ht, hread, List.filterMap_cons_some hitem, enterAll, hn] at hall
      cases hall
  · exact .other hk

theorem pulled (hseq : Feed.Presents seq) (h : HasRead seq ts pre x) :
    Pulled seq ts x.pull := by
  fun_induction pull x generalizing pre with
  | case1 x t us hp => exact .token ⟨h.whole, h.agrees, h.cut⟩
  | case2 x hp s hs =>
      obtain ⟨hn, hn'⟩ := hseq.eof hs
      have hend : HasRead seq ts pre { x with input := s } := by
        refine ⟨?_, h.agrees, .inl hn'⟩
        rw [hn', ← hn, h.whole]
      exact hend.pulled_end hn'
  | case3 x hp e s hs =>
      exact .other (by rw [hseq.fault hs]; decide)
  | case4 x hp t s hs ht line s₁ hr state e hx => exact h.pulled_failed_line hseq hs ht hr hx
  | case5 x hp t s hs ht line s₁ hr state u us hx => exact .token (h.line hseq hs ht hr hx us)
  | case6 x hp t s hs ht line s₁ hr state hx ih => exact ih (h.line hseq hs ht hr hx x.pending)
  | case7 x hp t s hs ht ha => exact .token (h.text hseq hs ht)
  | case8 x hp t s hs ht ha ih => exact ih (h.text hseq hs ht)

end Step

section Run

variable [Feed σ]

/-- The states of a text while it is read: before and after every token, and at the end. -/
inductive Moment : ActiveText σ → ActiveText σ → Prop where
  | start {y} : Moment y y
  | stop {e y z} : y.pull = .stop e z → Moment y z
  | token {t y y' z} : y.pull = .token t y' → Moment y' z → Moment y z

variable {out : List Token} {e : End} {x₁ : ActiveText σ}

/-- A text that is read to its end, or to a nesting error, ends without error exactly if its
directives are well nested. -/
theorem wellNested_iff_of_runs (hseq : Feed.Presents seq) (hr : Runs x out e x₁)
    (h : HasRead seq ts pre x) (he : ∀ f, e = .fault f → f.kind = .nesting) :
    e = .eof ↔ WellNested (conditionals ts) := by
  induction hr generalizing pre with
  | @stop x e x₁ hp =>
      have hpull := pulled hseq h
      rw [show x.pull = _ from hp] at hpull
      cases hpull with
      | eof _ hw => simp [hw]
      | nesting _ hw _ => simp [hw]
      | other hk => exact absurd (he _ rfl) hk
  | @token x y x₁ t out e hp _ ih =>
      have hpull := pulled hseq h
      rw [show x.pull = _ from hp] at hpull
      cases hpull with
      | token h => exact ih h he

theorem Moment.balanced (hseq : Feed.Presents seq) {y : ActiveText σ} (hm : Moment x y)
    (hr : Runs x out e x₁) (h : HasRead seq ts pre x)
    (he : ∀ f, e = .fault f → f.kind = .nesting) : Balanced seq ts y := by
  induction hm generalizing pre out with
  | start => exact h.balanced
  | @stop f x y hp =>
      have hpull := pulled hseq h
      rw [hp] at hpull
      obtain ⟨-, rfl, -⟩ := hr.of_stop hp
      cases hpull with
      | eof hb _ => exact hb
      | nesting hb _ _ => exact hb
      | other hk => exact absurd (he _ rfl) hk
  | @token t x y z hp _ ih =>
      have hpull := pulled hseq h
      rw [hp] at hpull
      obtain ⟨us, -, hrest⟩ := hr.of_token hp
      cases hpull with
      | token h => exact ih hrest h

/-- Nesting is accepted exactly when it is well formed. If reading a text meets no error of
another kind, it fails with a nesting error just when its conditional directives are no word of
the grammar, and at every moment as many groups are open as were opened and not yet closed. -/
theorem nesting_error_iff (hseq : Feed.Presents seq) (s : σ) (T : Table) (keepUnknown : Bool)
    (hclean : ∀ e, (TokenStream.drain (Buffered.ofSource (ofSource s T keepUnknown))).1.error =
      some e → e.kind ∉ [.lexical, .directive, .invocation, .evaluation]) :
    ((∃ e, (TokenStream.drain (Buffered.ofSource (ofSource s T keepUnknown))).1.error = some e ∧
        e.kind = .nesting) ↔ ¬WellNested (conditionals (seq s))) ∧
      ∀ x, Moment (ofSource s T keepUnknown) x → Balanced seq (seq s) x := by
  obtain ⟨out, e, x₁, hr⟩ := Runs.exists_runs (ofSource s T keepUnknown)
  rw [hr.drain] at hclean ⊢
  have he : ∀ f, e = .fault f → f.kind = .nesting := by
    rintro f rfl
    have := hclean f rfl
    cases hk : f.kind <;> simp [hk] at this ⊢
  refine ⟨?_, fun x hm => hm.balanced hseq hr (.start s T keepUnknown) he⟩
  rw [← wellNested_iff_of_runs hseq hr (.start s T keepUnknown) he]
  cases e with
  | eof => simp [End.error?]
  | fault f => simp [End.error?, he f rfl]

end Run

namespace Sample

/-- A group that is skipped, with a condition and a literal that are malformed and with two last
branches. -/
def twoElse : Text :=
  ascii "#ifdef A\n#if (\n'\n#else\n#else\n#endif\n#endif\n"

/-- A condition that cannot be expanded. -/
def variadicLine : HashLine :=
  ⟨hash, [word "if", gap, word "__VA_ARGS__", newline]⟩

/-- The condition opens a group that is not closed. -/
def variadicCondition : List Token :=
  variadicLine.hash :: variadicLine.tokens

end Sample

open Sample in
theorem nesting_error_twoElse :
    (∀ e, (TokenStream.drain (Buffered.ofSource
        (ofSource (Lexer.ofText twoElse) {} false))).1.error = some e →
          e.kind ∉ [.lexical, .directive, .invocation, .evaluation]) ∧
      (∃ e, (TokenStream.drain (Buffered.ofSource
        (ofSource (Lexer.ofText twoElse) {} false))).1.error = some e ∧ e.kind = .nesting) ∧
      ¬WellNested (conditionals (Lexer.ofText twoElse).tolerated) ∧
      ∀ x, Moment (ofSource (Lexer.ofText twoElse) {} false) x →
        Balanced Lexer.tolerated (Lexer.ofText twoElse).tolerated x := by
  have hcheck : (Source.runWithin (some ∘ Source.pull) 9
      (ofSource (Lexer.ofText twoElse) {} false)).any (fun r =>
        r.2.1.error?.any fun e => e.kind = .nesting) = true := by
    decide +kernel
  obtain ⟨⟨out, e, x⟩, hr, he⟩ := (Option.any_eq_true _ _).1 hcheck
  obtain ⟨f, hf, hkind⟩ := (Option.any_eq_true _ _).1 he
  have hk : f.kind = .nesting := of_decide_eq_true hkind
  have hruns := Source.runs_of_runWithin (fun hp => Option.some.inj hp) hr
  have herror : (TokenStream.drain (Buffered.ofSource
      (ofSource (Lexer.ofText twoElse) {} false))).1.error = some f := by
    rw [hruns.drain]
    exact hf
  have hclean : ∀ e, (TokenStream.drain (Buffered.ofSource
      (ofSource (Lexer.ofText twoElse) {} false))).1.error = some e →
        e.kind ∉ [.lexical, .directive, .invocation, .evaluation] := by
    intro e he
    cases herror.symm.trans he
    rw [hk]
    decide
  obtain ⟨hiff, hbalanced⟩ := nesting_error_iff Lexer.presents_tolerated _ {} false hclean
  exact ⟨hclean, ⟨f, herror, hk⟩, hiff.1 ⟨f, herror, hk⟩, hbalanced⟩

theorem error_of_exec {ts : List Token} {T : Table} {e : Error}
    (h : exec (Item.ofTokens true ts) { table := T } = .error e) :
    (TokenStream.drain (Buffered.ofSource (ofSource ts T false))).1.error = some e := by
  have hout : (ofSource ts T false).outcome = .error e := (outcome_eq_exec ts _ true).trans h
  rw [outcome] at hout
  split at hout
  · rename_i hd
    rw [hd]
    cases hout
    rfl
  · cases hout

open Sample in
/-- An error of macro expansion in a condition keeps a group from being opened, so the grammar
has no say in it. -/
theorem not_nesting_error_variadicCondition :
    (∀ e, (TokenStream.drain (Buffered.ofSource (ofSource variadicCondition {} false))).1.error =
        some e → e.kind ∉ [.lexical, .directive, .evaluation]) ∧
      ¬((∃ e, (TokenStream.drain (Buffered.ofSource
            (ofSource variadicCondition {} false))).1.error = some e ∧ e.kind = .nesting) ↔
          ¬WellNested (conditionals variadicCondition)) := by
  have hexpand : expandKeepingDefined {} [gap, word "__VA_ARGS__"] =
      ⟨[gap], some { fault := .variadicNameInText }⟩ :=
    Expansion.expandAt_of_within (n := 3) (by decide +kernel)
  have htruth : variadicLine.truth {} = .error { fault := .variadicNameInText } := by
    have hr : Condition.replaceDefined {} [gap, word "__VA_ARGS__"] =
        .ok [gap, word "__VA_ARGS__"] := by decide +kernel
    change Except.map _ (Condition.replaceDefined {} [gap, word "__VA_ARGS__"] >>= _) = _
    rw [hr, except_ok_bind, hexpand]
    rfl
  have hheading : variadicLine.heading? =
      some (.ifHolds, word "if", [gap, word "__VA_ARGS__", newline]) := rfl
  have hrun := HashLine.run_opens hheading rfl {}
  rw [htruth] at hrun
  have hitems : Item.ofTokens true variadicCondition = [.line variadicLine] := by decide +kernel
  have hx : exec (Item.ofTokens true variadicCondition) {} =
      .error { fault := .variadicNameInText } := by
    rw [hitems]
    exact exec_of_run_error hheading hrun
  have herror := error_of_exec (T := {}) hx
  rw [herror]
  refine ⟨?_, fun h => ?_⟩
  · rintro e ⟨⟩
    decide
  · have hwell : ¬WellNested (conditionals variadicCondition) := by
      rw [← enterAll_eq_some_nil_iff]
      decide +kernel
    obtain ⟨e, ⟨⟩, hk⟩ := h.2 hwell
    cases hk

end ActiveText
end CPreprocessor

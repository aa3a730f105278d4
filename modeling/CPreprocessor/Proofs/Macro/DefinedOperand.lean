import CPreprocessor.Proofs.Macro.Evaluation
import CPreprocessor.Proofs.Macro.Scan

/-!
The operand of `defined` in a condition. Scans that wait for the replacement of an invocation form
a stack. When the innermost one comes to `defined`, a name behind it in the same list is handed
out as it is. If the list ends before the operand, a scan further out comes to the operand and
treats it like any other name.
-/

namespace CPreprocessor

/-- White space or an opening parenthesis, which `defined` looks past for its operand. -/
def Token.leadsToOperand (t : Token) : Bool :=
  t.isSpace || t.isPunct (ascii "(")

theorem Token.kind_of_leadsToOperand {t : Token} (h : t.leadsToOperand = true) :
    t.kind ≠ .identifier := by
  intro hk
  simp [leadsToOperand, isSpace, isPunct, hk] at h

namespace Expansion

section Stacks

variable (T : Table) (keep : Bool)

/-- A move of the innermost scan on a stack: it is over, it hands out tokens, or it comes to an
invocation, the replacement of which is scanned first. -/
inductive Move : List Scan → List Token → List Scan → Prop where
  | leave {s ss rest} : s.step T keep = .stop .eof rest → Move (s :: ss) [] ss
  | emit {s ss t op rest} : s.step T keep = .emit t op rest →
      Move (s :: ss) (t :: op) (s.behind rest :: ss)
  | enter {s ss m args rest body} : s.step T keep = .call m args rest →
      replacement T keep s.depth m args = .ok body →
      Move (s :: ss) [] (s.rescan m body :: s.behind rest :: ss)

/-- The tokens that are handed out on the way from one stack of scans to another. -/
inductive Hands : List Scan → List Token → List Scan → Prop where
  | refl (st) : Hands st [] st
  | head {st st₁ st₂ out outs} : Move T keep st out st₁ → Hands st₁ outs st₂ →
      Hands st (out ++ outs) st₂

/-- What the scans on a stack give one after the other. -/
def outputs : List Scan → Output
  | [] => {}
  | s :: ss =>
    match s.output T keep with
    | ⟨out, some e⟩ => ⟨out, some e⟩
    | ⟨out, none⟩ => (outputs ss).prepend out

/-- The tokens that the scans on a stack have still to read. -/
def pending (st : List Scan) : List Token :=
  st.flatMap Scan.input

end Stacks

variable {T : Table} {keep : Bool}

theorem outputs_singleton (s : Scan) : outputs T keep [s] = s.output T keep := by
  rw [outputs]
  rcases s.output T keep with ⟨out, _ | e⟩
  · simp [outputs, Output.prepend]
  · rfl

/-- A move hands out the front of the output. -/
theorem outputs_of_move {st st₁ : List Scan} {out : List Token} (h : Move T keep st out st₁) :
    outputs T keep st = (outputs T keep st₁).prepend out := by
  cases h with
  | leave hs =>
      rw [outputs, Scan.output, expandAt_of_stop hs]
      rfl
  | @emit s ss t op rest hs =>
      rw [outputs, outputs, Scan.output_of_emit hs]
      rcases (s.behind rest).output T keep with ⟨out, _ | e⟩
      · simp [Output.prepend]
      · rfl
  | @enter s ss m args rest body hs hb =>
      rw [outputs, outputs, outputs, Scan.output_of_call hs, hb]
      simp only
      rcases (s.rescan m body).output T keep with ⟨out, _ | e⟩
      · rcases (s.behind rest).output T keep with ⟨out', _ | e⟩
        · simp [Output.prepend]
        · rfl
      · rfl

theorem outputs_of_hands {st st₁ : List Scan} {out : List Token} (h : Hands T keep st out st₁) :
    outputs T keep st = (outputs T keep st₁).prepend out := by
  induction h with
  | refl st => rfl
  | head hm _ ih =>
      rw [outputs_of_move hm, ih]
      simp [Output.prepend]

/-- A scan that has read its list is over. -/
theorem move_read (s : Scan) (ss : List Scan) : Move T keep (s.behind [] :: ss) [] ss := by
  have hs : (s.behind []).step T keep = .stop .eof [] := rfl
  exact .leave hs

theorem Move.hands {st st₁ : List Scan} {out : List Token} (h : Move T keep st out st₁) :
    Hands T keep st out st₁ := by
  have := Hands.head h (.refl st₁)
  rwa [List.append_nil] at this

theorem Hands.trans {st st₁ st₂ : List Scan} {out outs : List Token}
    (h : Hands T keep st out st₁) (h₁ : Hands T keep st₁ outs st₂) :
    Hands T keep st (out ++ outs) st₂ := by
  induction h with
  | refl st => exact h₁
  | head hm _ ih =>
      rw [List.append_assoc]
      exact .head hm (ih h₁)

/-- All that a scan gives is handed out, and without an error the scan is left in the end. -/
theorem exists_hands (s : Scan) (ss : List Scan) :
    ∃ st, Hands T keep (s :: ss) (s.output T keep).tokens st ∧
      ((s.output T keep).error = none → st = ss) := by
  induction s using (Scan.wellFounded_leads T keep).induction generalizing ss with
  | _ s ih =>
  cases hs : s.step T keep with
  | stop e rest =>
      rw [Scan.output, expandAt_of_stop hs]
      cases e with
      | eof => exact ⟨ss, (Move.leave hs).hands, fun _ => rfl⟩
      | fault e =>
          refine ⟨s :: ss, .refl _, ?_⟩
          intro h
          cases h
  | emit t op rest =>
      rw [Scan.output_of_emit hs]
      obtain ⟨st, hst, hend⟩ := ih _ (.onward hs) ss
      exact ⟨st, .head (.emit hs) hst, hend⟩
  | call m args rest =>
      rw [Scan.output_of_call hs]
      cases hb : replacement T keep s.depth m args with
      | error e =>
          refine ⟨s :: ss, .refl _, ?_⟩
          intro h
          cases h
      | ok body =>
          obtain ⟨st, hst, hend⟩ := ih _ (.rescan hs hb) (s.behind rest :: ss)
          have henter := Hands.head (.enter hs hb) hst
          simp only
          rcases hx : (s.rescan m body).output T keep with ⟨out, _ | e⟩
          · rw [hx] at henter hend
            obtain rfl := hend rfl
            obtain ⟨st, hst, hend⟩ := ih _ (.resume hs hb (by rw [hx])) ss
            exact ⟨st, henter.trans hst, hend⟩
          · rw [hx] at henter
            refine ⟨st, henter, ?_⟩
            intro h
            cases h

/-- A scan that waits for a replacement is not at the last level. -/
theorem Move.depth_lt {st st₁ : List Scan} {out : List Token} (hm : Move T keep st out st₁)
    (h : ∀ u ∈ st.tail, u.depth < depthLimit) : ∀ u ∈ st₁.tail, u.depth < depthLimit := by
  cases hm with
  | leave => exact fun u hu => h u (List.mem_of_mem_tail hu)
  | emit => exact h
  | enter hs _ => exact List.forall_mem_cons.2 ⟨(size_of_call hs).2, h⟩

theorem Hands.depth_lt {st st₁ : List Scan} {out : List Token} (hr : Hands T keep st out st₁)
    (h : ∀ u ∈ st.tail, u.depth < depthLimit) : ∀ u ∈ st₁.tail, u.depth < depthLimit := by
  induction hr with
  | refl st => exact h
  | head hm _ ih => exact ih (hm.depth_lt h)

/-- What is no name is handed out as it is. -/
theorem hands_pass {s : Scan} {ss : List Scan} {ts rest : List Token}
    (hin : s.input = ts ++ rest) (h : ∀ t ∈ ts, t.kind ≠ .identifier) :
    Hands T keep (s :: ss) ts (s.behind rest :: ss) := by
  induction ts generalizing s with
  | nil =>
      rw [List.nil_append] at hin
      subst hin
      exact .refl _
  | cons t ts ih =>
      have hs : s.step T keep = .emit t [] (ts ++ rest) := by
        rw [Scan.step, hin, step]
        exact if_pos (h t List.mem_cons_self)
      exact .head (.emit hs) (ih rfl fun u hu => h u (List.mem_cons_of_mem t hu))

/-- Scans without names are passed through. -/
theorem hands_pending {us st : List Scan} (h : ∀ t ∈ pending us, t.kind ≠ .identifier) :
    Hands T keep (us ++ st) (pending us) st := by
  induction us with
  | nil => exact .refl st
  | cons u us ih =>
      have hus (t : Token) (ht : t ∈ u.input) : t.kind ≠ .identifier :=
        h t (List.mem_append_left _ ht)
      have hpass : Hands T keep (u :: (us ++ st)) u.input (u.behind [] :: (us ++ st)) :=
        hands_pass (List.append_nil _).symm hus
      have hrest := ih fun t ht => h t (List.mem_append_right _ ht)
      exact hpass.trans (.head (move_read u _) hrest)

theorem afterDefined_of_leads {skip : List Token} (h : ∀ t ∈ skip, t.leadsToOperand = true)
    (ts : List Token) :
    afterDefined (skip ++ ts) = ((afterDefined ts).1.prepend skip, (afterDefined ts).2) := by
  induction skip with
  | nil => rfl
  | cons t skip ih =>
      obtain ⟨ht, hskip⟩ := List.forall_mem_cons.1 h
      rw [List.cons_append, afterDefined_of_token (s := skip ++ ts) rfl,
        if_neg (Token.kind_of_leadsToOperand ht), ← Token.leadsToOperand, if_pos ht, ih hskip]
      rfl

theorem step_of_defined {d : Token} (hd : d.isIdent Vocabulary.definedName = true) (depth : Nat)
    (ctx : Context) (r : List Token) :
    step (fun _ => T) true depth ctx (d :: r) =
      .emit d (afterDefined r).1.tokens (afterDefined r).2 := by
  obtain ⟨hk, ht⟩ := Bool.and_eq_true_iff.1 hd
  have hk : d.kind = .identifier := beq_iff_eq.1 hk
  have ht : d.text = Vocabulary.definedName := beq_iff_eq.1 ht
  have hv : d.text ≠ Vocabulary.variadicName := by
    rw [ht]
    decide
  have herr := afterDefined_error r
  rw [step]
  simp only [TokenStream.next, TokenList.next]
  rw [if_neg (fun h => h hk), if_neg hv, if_pos ⟨trivial, ht⟩]
  generalize afterDefined r = x at herr
  obtain ⟨⟨op, _ | e⟩, rest⟩ := x
  · rfl
  · cases herr

/-- The name `x` in front of `rest` stands for itself in a scan: no macro of that name is in force
there, or it takes arguments and there are none. -/
def Scan.Spares (T : Table) (s : Scan) (x : Token) (rest : List Token) : Prop :=
  x.text = Vocabulary.definedName ∨ ∀ m, T.lookup x.text = some m → x.text ∉ s.context →
    m.functionLike = true ∧
      (rest.dropWhile Token.isSpace).head?.any (Token.isPunct (ascii "(")) = false

theorem Scan.step_of_spares {u : Scan} {x : Token} {rest : List Token}
    (hin : u.input = x :: rest) (hk : x.kind = .identifier)
    (hv : x.text ≠ Vocabulary.variadicName) (hdepth : u.depth < depthLimit)
    (hx : u.Spares T x rest) :
    ∃ op rest', rest = op ++ rest' ∧ u.step T true = .emit x op rest' := by
  rw [Scan.step, hin]
  by_cases hd : x.text = Vocabulary.definedName
  · refine ⟨_, _, (afterDefined_append rest).symm, step_of_defined ?_ _ _ _⟩
    simp [Token.isIdent, hk, hd]
  · have hx := hx.resolve_left hd
    have hcase := step_cases T true u.depth u.context x rest
    generalize Expansion.step (fun _ => T) true u.depth u.context (x :: rest) = st at hcase
    cases hcase with
    | pass => exact ⟨[], rest, rfl, rfl⟩
    | variadic _ h => exact absurd h hv
    | operand _ h _ => exact absurd h hd
    | tooDeep _ _ h => omega
    | @function m hm hctx _ _ _ =>
        obtain ⟨-, hparen⟩ := hx m hm hctx
        refine ⟨[], rest, rfl, ?_⟩
        rw [invocation_eq]
        cases hdrop : rest.dropWhile Token.isSpace with
        | nil => rfl
        | cons p ps =>
            rw [hdrop] at hparen
            exact if_neg (Bool.eq_false_iff.1 hparen)
    | @object m hm hctx _ hf _ =>
        obtain ⟨hfun, -⟩ := hx m hm hctx
        rw [hf] at hfun
        cases hfun

section Moments

variable {s : Scan} {ss : List Scan} {d : Token} {r : List Token}

/-- A name behind `defined` in the same list is handed out with it. -/
theorem hands_operand (hin : s.input = d :: r) (hd : d.isIdent Vocabulary.definedName = true)
    {skip rest : List Token} {x : Token} (hr : r = skip ++ x :: rest)
    (hskip : ∀ t ∈ skip, t.leadsToOperand = true) (hx : x.kind = .identifier) :
    Hands T true (s :: ss) (d :: (skip ++ [x])) (s.behind rest :: ss) := by
  have hs : s.step T true = .emit d (skip ++ [x]) rest := by
    rw [Scan.step, hin, step_of_defined hd, hr, afterDefined_of_leads hskip,
      afterDefined_of_token (s := rest) rfl, if_pos hx]
    rfl
  exact (Move.emit hs).hands

/-- Without an operand in its list `defined` is handed out, and the scans further out go on. -/
theorem hands_defined (hin : s.input = d :: r) (hd : d.isIdent Vocabulary.definedName = true)
    {us st : List Scan} (hss : ss = us ++ st)
    (hlead : ∀ t ∈ r ++ pending us, t.leadsToOperand = true) :
    Hands T true (s :: ss) (d :: (r ++ pending us)) st := by
  obtain ⟨hr, hus⟩ := List.forall_mem_append.1 hlead
  have hs : s.step T true = .emit d r [] := by
    have hafter := afterDefined_of_leads hr []
    rw [List.append_nil, afterDefined_of_stop (r := []) rfl] at hafter
    rw [Scan.step, hin, step_of_defined hd, hafter]
    simp [Output.prepend]
  have hpass : Hands T true ss (pending us) st := by
    rw [hss]
    exact hands_pending fun t ht => Token.kind_of_leadsToOperand (hus t ht)
  exact .head (.emit hs) (.head (move_read s ss) hpass)

end Moments

/-- All that a scan gives in a condition is handed out, and wherever `defined` is come to on the
way, the name behind it, white space and opening parentheses aside, is handed out as it is if it
stands in the same list. If it stands in a list further out, behind the invocation that ended with
`defined`, it is handed out as it is unless a macro of that name is invoked there. -/
theorem output_behind_defined (T : Table) (s₀ : Scan) :
    (∃ st, Hands T true [s₀] (s₀.output T true).tokens st) ∧
      ∀ before s ss d r, Hands T true [s₀] before (s :: ss) → s.input = d :: r →
        d.isIdent Vocabulary.definedName = true →
        (∀ skip x rest, r = skip ++ x :: rest → (∀ t ∈ skip, t.leadsToOperand = true) →
          x.kind = .identifier →
          s₀.output T true = (outputs T true (s.behind rest :: ss)).prepend
            (before ++ d :: (skip ++ [x]))) ∧
        ∀ us u vs skip x rest, ss = us ++ u :: vs → u.input = skip ++ x :: rest →
          (∀ t ∈ r ++ pending us ++ skip, t.leadsToOperand = true) →
          x.kind = .identifier → x.text ≠ Vocabulary.variadicName → u.Spares T x rest →
          ∃ op behind, rest = op ++ behind ∧
            s₀.output T true = (outputs T true (u.behind behind :: vs)).prepend
              (before ++ d :: (r ++ pending us ++ skip ++ x :: op)) := by
  have hgives {out : List Token} {st : List Scan} (h : Hands T true [s₀] out st) :
      s₀.output T true = (outputs T true st).prepend out := by
    rw [← outputs_of_hands h, outputs_singleton]
  obtain ⟨st, hall, -⟩ := @exists_hands T true s₀ []
  refine ⟨⟨st, hall⟩, ?_⟩
  intro before s ss d r h hin hd
  constructor
  · intro skip x rest hr hskip hx
    exact hgives (h.trans (hands_operand hin hd hr hskip hx))
  · intro us u vs skip x rest hss hu hlead hx hv hspares
    obtain ⟨hlead, hskip⟩ := List.forall_mem_append.1 hlead
    have hdefined : Hands T true (s :: ss) (d :: (r ++ pending us)) (u :: vs) :=
      hands_defined hin hd hss hlead
    have hpass : Hands T true (u :: vs) skip (u.behind (x :: rest) :: vs) :=
      hands_pass hu fun t ht => Token.kind_of_leadsToOperand (hskip t ht)
    have hdepth : u.depth < depthLimit := by
      refine h.depth_lt (by simp) u ?_
      rw [hss]
      exact List.mem_append_right us List.mem_cons_self
    obtain ⟨op, behind, hrest, hs⟩ :=
      Scan.step_of_spares (u := u.behind (x :: rest)) rfl hx hv hdepth hspares
    have hemit : Hands T true (u.behind (x :: rest) :: vs) (x :: op) (u.behind behind :: vs) :=
      (Move.emit hs).hands
    refine ⟨op, behind, hrest, ?_⟩
    have hout := hgives (h.trans (hdefined.trans (hpass.trans hemit)))
    rwa [List.cons_append, ← List.append_assoc] at hout

namespace Sample

def operator : Token :=
  { kind := .identifier, text := ascii "defined" }

/-- The name of a macro that is replaced by a number. -/
def defined : Token :=
  { kind := .identifier, text := ascii "X" }

def undefined : Token :=
  { kind := .identifier, text := ascii "Y" }

def invoked : Token :=
  { kind := .identifier, text := ascii "D" }

def lead : List Token :=
  [Token.space {}, { kind := .punctuator, text := ascii "(" }]

def close : List Token :=
  [{ kind := .punctuator, text := ascii ")" }, Token.space {}]

/-- A replacement with the operator in front of an operand in parentheses and at the end. -/
def twice : List Token :=
  operator :: (lead ++ defined :: (close ++ [operator]))

/-- The macros of a condition, of which one has the given body. -/
def macros (body : List Token) : Table :=
  ⟨[{ name := ascii "X", body := [{ kind := .number, text := ascii "1" }] },
    { name := ascii "D", body }]⟩

/-- The line of a condition, an invocation and a name. -/
def line (x : Token) : List Token :=
  [invoked, Token.space {}, x]

end Sample

theorem hands_sample {body : List Token}
    (h : (Substitution.substitute { name := ascii "D", body } []).toOption = some body)
    (x : Token) :
    Hands (Sample.macros body) true [Scan.start (Sample.line x)] []
      [⟨1, [ascii "D"], body⟩, ⟨0, [], [Token.space {}, x]⟩] := by
  have hs : (Scan.start (Sample.line x)).step (Sample.macros body) true =
      .call { name := ascii "D", body } [] [Token.space {}, x] := rfl
  have hb : replacement (Sample.macros body) true 0 { name := ascii "D", body } [] = .ok body := by
    cases hsub : Substitution.substitute { name := ascii "D", body } [] with
    | error e => rw [hsub] at h; cases h
    | ok ts =>
        rw [hsub] at h
        cases h
        exact hsub
  exact (Move.enter hs hb).hands

/-- The operand in the replacement is the name of a macro and stays; the one behind the invocation
is not, and stays as well. -/
theorem output_behind_defined_twice :
    (Sample.macros Sample.twice).isDefined Sample.defined.text = true ∧
      (∃ more, (expandKeepingDefined (Sample.macros Sample.twice)
        (Sample.line Sample.undefined)).tokens =
          Sample.operator :: (Sample.lead ++ [Sample.defined]) ++ more) ∧
      expandKeepingDefined (Sample.macros Sample.twice) (Sample.line Sample.undefined) =
        ⟨Sample.twice ++ [Token.space {}, Sample.undefined], none⟩ := by
  have hstart : Hands (Sample.macros Sample.twice) true
      [Scan.start (Sample.line Sample.undefined)] []
      [⟨1, [ascii "D"], Sample.twice⟩, ⟨0, [], [Token.space {}, Sample.undefined]⟩] :=
    hands_sample (by decide +kernel) Sample.undefined
  have hfirst : Hands (Sample.macros Sample.twice) true
      [⟨1, [ascii "D"], Sample.twice⟩, ⟨0, [], [Token.space {}, Sample.undefined]⟩]
      (Sample.operator :: (Sample.lead ++ [Sample.defined]))
      [⟨1, [ascii "D"], Sample.close ++ [Sample.operator]⟩,
        ⟨0, [], [Token.space {}, Sample.undefined]⟩] :=
    hands_operand rfl (by decide) rfl (by decide) rfl
  have hsecond : Hands (Sample.macros Sample.twice) true
      [⟨1, [ascii "D"], Sample.close ++ [Sample.operator]⟩,
        ⟨0, [], [Token.space {}, Sample.undefined]⟩] Sample.close
      [⟨1, [ascii "D"], [Sample.operator]⟩, ⟨0, [], [Token.space {}, Sample.undefined]⟩] :=
    hands_pass rfl (by decide)
  obtain ⟨-, hmoments⟩ :=
    output_behind_defined (Sample.macros Sample.twice) (Scan.start (Sample.line Sample.undefined))
  have hsame := (hmoments _ _ _ _ _ hstart rfl (by decide)).1 Sample.lead Sample.defined _
    rfl (by decide) rfl
  have hspares : Scan.Spares (Sample.macros Sample.twice)
      ⟨0, [], [Token.space {}, Sample.undefined]⟩ Sample.undefined [] := by
    right
    intro m hm
    cases hm
  obtain ⟨op, behind, hnil, houter⟩ :=
    (hmoments _ _ _ _ _ (hstart.trans (hfirst.trans hsecond)) rfl (by decide)).2 [] _ []
      [Token.space {}] Sample.undefined [] rfl rfl (by decide) rfl (by decide) hspares
  obtain ⟨rfl, rfl⟩ := List.append_eq_nil_iff.1 hnil.symm
  refine ⟨by decide, ⟨_, congrArg Output.tokens hsame⟩, houter.trans ?_⟩
  rw [outputs_singleton, Scan.output, expandAt_of_stop (e := .eof) rfl]
  rfl

/-- An operand behind the invocation that ended with `defined` is expanded if it is the name of a
macro. -/
theorem not_output_behind_defined_invocation :
    Hands (Sample.macros [Sample.operator]) true [Scan.start (Sample.line Sample.defined)] []
        [⟨1, [ascii "D"], [Sample.operator]⟩, ⟨0, [], [Token.space {}, Sample.defined]⟩] ∧
      expandKeepingDefined (Sample.macros [Sample.operator]) (Sample.line Sample.defined) =
        ⟨[Sample.operator, Token.space {}, { kind := .number, text := ascii "1" }], none⟩ ∧
      ¬∃ more, (expandKeepingDefined (Sample.macros [Sample.operator])
        (Sample.line Sample.defined)).tokens =
          [Sample.operator, Token.space {}, Sample.defined] ++ more := by
  have hout : expandKeepingDefined (Sample.macros [Sample.operator]) (Sample.line Sample.defined) =
      ⟨[Sample.operator, Token.space {}, { kind := .number, text := ascii "1" }], none⟩ :=
    expandAt_of_within (n := 9) (by decide +kernel)
  refine ⟨hands_sample (by decide +kernel) Sample.defined, hout, ?_⟩
  rintro ⟨more, h⟩
  rw [hout] at h
  simp [Sample.defined] at h

end Expansion
end CPreprocessor

import CPreprocessor.Proofs.Macro.Composition
import CPreprocessor.Proofs.Macro.ExpandedText

/-!
Expansion on demand of text between whose tokens the macros do not change. A replacement that
waits on the stack is handed out as its expansion, and so are tokens of the input that can be
expanded on their own. What is behind them is then expanded as if nothing had been in front.
-/

namespace CPreprocessor

open Source (Runs)

namespace Arguments

theorem mem_consFirst {t u : Token} {as : List (List Token)} (h : ∃ a ∈ as, t ∈ a) :
    ∃ b ∈ consFirst u as, t ∈ b := by
  obtain ⟨a, ha, ht⟩ := h
  cases as with
  | nil => cases ha
  | cons b bs =>
      rcases List.mem_cons.1 ha with rfl | ha
      · exact ⟨u :: a, List.mem_cons_self, List.mem_cons_of_mem u ht⟩
      · exact ⟨a, List.mem_cons_of_mem _ ha, ht⟩

/-- What a token does to arguments that are being read, whatever stream it comes from: it closes
them, or they go on behind it and no token of them gets lost. -/
inductive CollectCase (name : Token) (depth : Nat) (t : Token) : Prop where
  | closed : (∀ {ρ : Type} [TokenStream ρ] {r s : ρ}, TokenStream.next r = .token t s →
      collect name depth r = (.ok [[]], s)) → CollectCase name depth t
  | more (d : Nat) (f : List (List Token) → List (List Token)) :
      (∀ {u as}, (∃ a ∈ as, u ∈ a) → ∃ b ∈ f as, u ∈ b) →
      (∀ {ρ : Type} [TokenStream ρ] {r s : ρ}, TokenStream.next r = .token t s →
        collect name depth r = ((collect name d s).1.map f, (collect name d s).2)) →
      CollectCase name depth t

theorem collect_cases (name : Token) (depth : Nat) (t : Token) : CollectCase name depth t := by
  by_cases hopen : t.isPunct (ascii "(") = true
  · refine .more (depth + 1) (consFirst t) mem_consFirst fun hn => ?_
    rw [collect_of_token hn, if_pos hopen]
  by_cases hclose : t.isPunct (ascii ")") = true
  · by_cases hdepth : depth = 0
    · refine .closed fun hn => ?_
      rw [collect_of_token hn, if_neg hopen, if_pos hclose, if_pos hdepth]
    · refine .more (depth - 1) (consFirst t) mem_consFirst fun hn => ?_
      rw [collect_of_token hn, if_neg hopen, if_pos hclose, if_neg hdepth]
  by_cases hcomma : (t.isPunct (ascii ",") && depth = 0) = true
  · refine .more depth ([] :: ·) ?_ fun hn => ?_
    · rintro u as ⟨a, ha, hu⟩
      exact ⟨a, List.mem_cons_of_mem _ ha, hu⟩
    · rw [collect_of_token hn, if_neg hopen, if_neg hclose, if_pos hcomma]
  · refine .more depth (consFirst t) mem_consFirst fun hn => ?_
    rw [collect_of_token hn, if_neg hopen, if_neg hclose, if_neg hcomma]

end Arguments

namespace Expansion

variable {T : Table}

/-- Without operands of `defined` a step hands out one token. -/
theorem operand_of_step {depth : Nat} {ctx : Context} {ts op rest : List Token} {u : Token}
    (h : step (fun _ => T) false depth ctx ts = .emit u op rest) : op = [] := by
  cases ts with
  | nil => cases h
  | cons t ts =>
      have hcase := step_cases T false depth ctx t ts
      rw [h] at hcase
      generalize hst : Step.emit u op rest = st at hcase
      cases hcase with
      | pass =>
          cases hst
          rfl
      | operand hkeep => cases hkeep
      | variadic | tooDeep | object => cases hst
      | function =>
          rw [invocation_eq] at hst
          split at hst
          · cases hst
            rfl
          · split at hst
            · unfold argumentsStep at hst
              split at hst
              · cases hst
              · split at hst <;> cases hst
            · cases hst
              rfl

end Expansion

namespace ExpandedText

open Expansion

variable {σ : Type} [Tabled σ] {T : Table} {r s : Buffered σ} {ts us : List Token} {e : End}
  {y : ExpandedText σ}

/-- A replacement on top of the stack is handed out as its expansion. -/
theorem runs_of_frame {fs : List Frame} {depth : Nat} {ctx : Context}
    (hT : Tabled.table r.source = T) (hdepth : depth = fs.length + 1)
    (herror : (expandAt T false depth ctx ts).error = none) (hrest : Runs ⟨r, fs⟩ us e y) :
    Runs ⟨r, ⟨ctx, ts⟩ :: fs⟩ ((expandAt T false depth ctx ts).tokens ++ us) e y := by
  subst hT
  fun_induction expandAt (Tabled.table r.source) false depth ctx ts generalizing fs us with
  | case1 depth ctx ts f rest hs =>
      subst hdepth
      cases f with
      | eof => exact hrest.of_pull_eq (pull_of_frame_stop rfl hs)
      | fault f => cases herror
  | case2 depth ctx ts t op rest hs ih =>
      subst hdepth
      obtain rfl := operand_of_step hs
      exact .token (pull_of_frame_emit rfl hs) (ih rfl hrest herror)
  | case3 | case4 => cases herror
  | case5 depth ctx ts m args rest hs _ body hbody expanded hexpanded _ ihbody =>
      rename_i ihrest
      subst hdepth
      rw [hexpanded] at ihbody
      have hpull := pull_of_frame_call (x := ⟨r, ⟨ctx, ts⟩ :: fs⟩) rfl hs
      have hreplaced :
          replacement (Tabled.table r.source) false (fs.length + 1) m args = .ok body := hbody
      simp only [ExpandedText.table, hreplaced] at hpull
      have hruns := ihbody rfl (ihrest rfl hrest herror) rfl
      rw [← List.append_assoc] at hruns
      exact hruns.of_pull_eq hpull

end ExpandedText

namespace Buffered

variable {σ : Type} [Tabled σ]

/-- The input hands out the tokens on its way from the first state to the second, and behind each
of them the macros `T` are in force. -/
inductive Reads (T : Table) : Buffered σ → List Token → Buffered σ → Prop where
  | nil {r} : Reads T r [] r
  | token {r r₁ s t ts} : TokenStream.next r = .token t r₁ → Tabled.table r₁.source = T →
      Reads T r₁ ts s → Reads T r (t :: ts) s

namespace Reads

variable {T : Table} {r s : Buffered σ} {ts : List Token}

/-- Tokens that are given back are read again. -/
theorem unread (h : Reads T r ts s) (hT : Tabled.table r.source = T) (us : List Token) :
    Reads T (TokenStream.unread us r) (us ++ ts) s := by
  induction us with
  | nil => exact h
  | cons u us ih => exact .token rfl hT ih

/-- White space is taken through the first token that is none. -/
theorem takeSpace (h : Reads T r ts s) {p : Token} {rest : List Token}
    (hp : ts.dropWhile Token.isSpace = p :: rest) :
    ∃ q, TokenStream.takeSpace true r =
        (⟨ts.takeWhile Token.isSpace, none⟩, TokenStream.unread [p] q) ∧
      Tabled.table q.source = T ∧ Reads T q rest s := by
  induction h with
  | nil => cases hp
  | @token r r₁ s t ts hn hT hrest ih =>
      rw [TokenStream.takeSpace_of_token hn]
      cases ht : t.isSpace with
      | true =>
          rw [List.dropWhile_cons_of_pos ht] at hp
          obtain ⟨q, hq, hsource, hreads⟩ := ih hp
          refine ⟨q, ?_, hsource, hreads⟩
          rw [hq, List.takeWhile_cons_of_pos ht]
          rfl
      | false =>
          rw [List.dropWhile_cons_of_neg (by simp [ht])] at hp
          cases hp
          refine ⟨r₁, ?_, hT, hrest⟩
          rw [List.takeWhile_cons_of_neg (by simp [ht])]
          rfl

/-- Arguments that are closed among the tokens are read off the input. -/
theorem collect (h : Reads T r ts s) {name : Token} {depth : Nat} {raw : List (List Token)}
    {rest : List Token} (hc : Arguments.collect name depth ts = (.ok raw, rest)) :
    ∃ q, Arguments.collect name depth r = (.ok raw, q) ∧ Tabled.table q.source = T ∧
      Reads T q rest s := by
  induction h generalizing depth raw with
  | nil =>
      rw [Arguments.collect_of_stop rfl] at hc
      cases hc
  | @token r r₁ s t ts hn hT hrest ih =>
      cases Arguments.collect_cases name depth t with
      | closed h =>
          rw [h (s := ts) rfl] at hc
          cases hc
          exact ⟨r₁, h hn, hT, hrest⟩
      | more d f _ h =>
          rw [h (s := ts) rfl] at hc
          obtain ⟨hr, rfl⟩ := Prod.mk.inj hc
          obtain ⟨as, has, rfl⟩ := except_map_eq_ok hr
          obtain ⟨q, hq, hreads⟩ := ih (Prod.ext has rfl)
          refine ⟨q, ?_, hreads⟩
          rw [h hn, hq]
          rfl

end Reads

end Buffered

namespace Expansion

variable {σ : Type} [Tabled σ] {T : Table} {r s : Buffered σ} {ts : List Token}

/-- A step through an input that is the step through a list, unless that one fails. -/
inductive Step.Alongside (T : Table) (s : Buffered σ) :
    Step (List Token) → Step (Buffered σ) → Prop where
  | stop {e rest st} : Alongside T s (.stop (.fault e) rest) st
  | emit {t op rest r} : r.Reads T rest s → Alongside T s (.emit t op rest) (.emit t op r)
  | call {m args rest r} : Tabled.table r.source = T → r.Reads T rest s →
      Alongside T s (.call m args rest) (.call m args r)

/-- A function-like name reads its arguments alike, if something follows it in the list. -/
theorem alongside_invocation (h : r.Reads T ts s) (hts : ts.dropWhile Token.isSpace ≠ [])
    (m : Macro) (t : Token) :
    Step.Alongside T s (invocation m t ts) (invocation m t r) := by
  obtain ⟨p, rest, hd⟩ := List.exists_cons_of_ne_nil hts
  obtain ⟨q, hq, hT, hreads⟩ := h.takeSpace hd
  have hback : ts.takeWhile Token.isSpace ++ p :: rest = ts := by
    rw [← hd, List.takeWhile_append_dropWhile]
  have hnext : TokenStream.next (TokenStream.unread [p] q) = .token p q := rfl
  rw [invocation_eq, hd, invocation, hq]
  simp only [TokenStream.takePunct, TokenStream.takeIf, hnext]
  by_cases hp : p.isPunct (ascii "(") = true
  · simp only [if_pos hp, argumentsStep]
    cases hc : Arguments.collect t 0 rest with
    | mk x rest' =>
    cases x with
    | error e => exact .stop
    | ok raw =>
        obtain ⟨q', hq', hT', hreads'⟩ := hreads.collect hc
        rw [hq']
        cases ha : Arguments.assign m t (raw.map Token.trim) with
        | error e =>
            simp only [ha]
            exact .stop
        | ok args =>
            simp only [ha]
            exact .call hT' hreads'
  · simp only [if_neg hp]
    refine .emit ?_
    have hagain := (Buffered.Reads.token hnext hT hreads).unread hT (ts.takeWhile Token.isSpace)
    rwa [hback] at hagain

/-- A step reads alike if the list does not end with a function-like name. -/
theorem alongside_step {t : Token} (h : r.Reads T (t :: ts) s) (hts : Settled T (t :: ts)) :
    Step.Alongside T s (step (fun _ => T) false 0 [] (t :: ts))
      (step (fun r => Tabled.table r.source) false 0 [] r) := by
  cases h with
  | @token _ r₁ _ _ _ hn hT hrest =>
  have hlist : TokenStream.next (t :: ts) = .token t ts := rfl
  simp only [step, hn, hlist, hT]
  split
  · exact .emit hrest
  · rename_i hk
    split
    · exact .stop
    · split
      · rename_i hkeep
        cases hkeep.1
      · cases hm : T.lookup t.text with
        | none => exact .emit hrest
        | some m =>
            simp only
            split
            · exact .emit hrest
            · split
              · exact .stop
              · split
                · rename_i hf
                  refine alongside_invocation hrest (hts.dropWhile_ne_nil ?_) m t
                  simp [Table.isFunctionName, Decidable.not_not.1 hk, hm, hf]
                · exact .call hT hrest

end Expansion

namespace ExpandedText

open Expansion

variable {σ : Type} [Tabled σ] {T : Table} {r s : Buffered σ} {ts us : List Token} {e : End}
  {y : ExpandedText σ}

/-- An invocation in the input is handed out as what its replacement is expanded to. -/
theorem runs_of_call {m : Macro} {args : List (List Token)} {body out : List Token}
    (hs : step (fun r => Tabled.table r.source) false 0 [] r = .call m args s)
    (hT : Tabled.table s.source = T) (hbody : replacement T false 0 m args = .ok body)
    (hout : expandAt T false 1 [m.name] body = ⟨out, none⟩) (hrest : Runs ⟨s, []⟩ us e y) :
    Runs ⟨r, []⟩ (out ++ us) e y := by
  have hpull := pull_of_call (x := ⟨r, []⟩) rfl hs
  simp only [hT, hbody] at hpull
  have hdepth : 1 = ([] : List Frame).length + 1 := rfl
  have hframe := runs_of_frame hT hdepth (congrArg Output.error hout) hrest
  rw [hout] at hframe
  exact hframe.of_pull_eq hpull

/-- Tokens that the input reads next are handed out as their expansion, and then comes what the
input has behind them. -/
theorem runs_of_reads (h : r.Reads T ts s) (hts : Settled T ts)
    (herror : (expand T ts).error = none) (hrest : Runs ⟨s, []⟩ us e y) :
    Runs ⟨r, []⟩ ((expand T ts).tokens ++ us) e y := by
  unfold expand at herror ⊢
  induction hn : ts.length using Nat.strongRecOn generalizing r ts with
  | ind n ih =>
  cases ts with
  | nil =>
      cases h
      have hend : step (fun _ => T) false 0 [] ([] : List Token) = .stop .eof [] := rfl
      rw [expandAt_of_stop hend]
      exact hrest
  | cons t ts =>
      have hstep := alongside_step h hts
      have hsuffix := confined_step 0 [] hts
      cases hs : step (fun _ => T) false 0 [] (t :: ts) with
      | stop f rest =>
          rw [hs] at hstep
          rw [expandAt_of_stop hs] at herror
          cases hstep
          cases herror
      | emit u op rest =>
          obtain rfl := operand_of_step hs
          rw [hs] at hsuffix hstep
          generalize hst : step (fun r => Tabled.table r.source) false 0 [] r = st at hstep
          rw [expandAt_of_emit hs] at herror ⊢
          cases hstep with
          | emit hreads =>
              exact .token (pull_of_emit rfl hst) (ih rest.length (hn ▸ size_of_emit hs) hreads
                (hts.of_suffix hsuffix.1) herror rfl)
      | call m args rest =>
          rw [hs] at hsuffix hstep
          generalize hst : step (fun r => Tabled.table r.source) false 0 [] r = st at hstep
          rw [expandAt_of_call hs] at herror ⊢
          cases hstep with
          | @call _ _ _ r₁ hT hreads =>
          cases hr : replacement T false 0 m args with
          | error f =>
              rw [hr] at herror
              cases herror
          | ok body =>
              simp only [hr, Nat.zero_add] at herror ⊢
              cases hx : expandAt T false 1 (Context.extend [] m.name) body with
              | mk out f =>
              rw [hx] at herror
              cases f with
              | some f => cases herror
              | none =>
                  have hbehind := ih rest.length (hn ▸ (size_of_call hs).1) hreads
                    (hts.of_suffix hsuffix.1) herror rfl
                  have hrun := runs_of_call hst hT hr hx hbehind
                  rw [← List.append_assoc] at hrun
                  exact hrun

end ExpandedText
end CPreprocessor

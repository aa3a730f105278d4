import CPreprocessor.Proofs.Macro.OnDemand

/-!
How a text that is expanded on demand comes to a hash in its input. What stands in front of the
hash is read token by token, and a name that looks behind itself for arguments stops at the hash.
So the text comes to the hash on the top level, or an invocation that is still open there takes
the hash into an argument, or the text fails before.
-/

namespace CPreprocessor

open Source (Runs)

theorem Token.not_isSpace_of_isHash {t : Token} (h : t.isHash = true) : t.isSpace = false := by
  cases hs : t.isSpace with
  | false => rfl
  | true => simp [isHash, not_isPunct_of_isSpace hs] at h

/-- A hash neither opens, nor separates, nor closes arguments. -/
theorem Token.not_isPunct_of_isHash {t : Token} (h : t.isHash = true) (text : Text)
    (h₁ : text ≠ ascii "#") (h₂ : text ≠ ascii "%:") : t.isPunct text = false := by
  simp only [isHash, isPunct, Bool.or_eq_true, Bool.and_eq_true, beq_iff_eq] at h
  rcases h with ⟨-, h⟩ | ⟨-, h⟩
  · simp [isPunct, h, h₁.symm]
  · simp [isPunct, h, h₂.symm]

namespace Arguments

theorem mem_consFirst_self (t : Token) (as : List (List Token)) :
    ∃ b ∈ consFirst t as, t ∈ b := by
  cases as with
  | nil => exact ⟨_, List.mem_cons_self, List.mem_cons_self⟩
  | cons a as => exact ⟨_, List.mem_cons_self, List.mem_cons_self⟩

theorem mem_joined {pos : Pos} {as : List (List Token)} {a : List Token} {t : Token} (ha : a ∈ as)
    (ht : t ∈ a) : t ∈ joined pos as := by
  induction as with
  | nil => cases ha
  | cons b bs ih =>
      cases bs with
      | nil =>
          cases List.mem_singleton.1 ha
          exact ht
      | cons c cs =>
          rcases List.mem_cons.1 ha with rfl | ha
          · exact List.mem_append_left _ ht
          · exact List.mem_append_right _ (List.mem_cons_of_mem _ (ih ha))

/-- No token of the arguments gets lost when they are assigned. -/
theorem mem_of_assign {m : Macro} {name t : Token} {raw args : List (List Token)}
    (h : assign m name raw = .ok args) {a : List Token} (ha : a ∈ raw) (ht : t ∈ a) :
    ∃ b ∈ args, t ∈ b := by
  simp only [assign] at h
  split at h
  · split at h
    · rename_i hraw
      subst hraw
      cases List.mem_singleton.1 ha
      cases ht
    · cases h
  · split at h
    · split at h
      · cases h
      · cases h
        rw [← raw.take_append_drop (m.params.length - 1)] at ha
        rcases List.mem_append.1 ha with ha | ha
        · exact ⟨a, List.mem_append_left _ ha, ht⟩
        · exact ⟨_, List.mem_append_right _ List.mem_cons_self, mem_joined ha ht⟩
    · split at h
      · cases h
      · split at h
        · cases h
        · cases h
          exact ⟨a, ha, ht⟩

end Arguments

namespace Buffered

variable {σ : Type} [Tabled σ]

theorem next_ofSource {s s₁ : σ} {t : Token} (h : Source.pull s = .token t s₁) :
    TokenStream.next (ofSource s) = .token t (ofSource s₁) := by
  simp only [TokenStream.next, next, ofSource, h]

/-- The input comes to read the tokens `ts`, at once or behind others, and then it is at `s`. -/
inductive InFront (T : Table) (ts : List Token) : Buffered σ → Buffered σ → Prop where
  | here {r s} : Reads T r ts s → InFront T ts r s
  | behind {r r₁ s t} :
      TokenStream.next r = .token t r₁ → InFront T ts r₁ s → InFront T ts r s

namespace InFront

variable {T : Table} {hash : Token} {ts : List Token} {s r : Buffered σ}

theorem unread (h : InFront T ts r s) (us : List Token) :
    InFront T ts (TokenStream.unread us r) s := by
  induction us with
  | nil => exact h
  | cons u us ih => exact .behind rfl ih

theorem takeSpace (hhash : hash.isHash = true) (h : InFront T (hash :: ts) r s) :
    ∃ ws q, TokenStream.takeSpace true r = (⟨ws, none⟩, q) ∧
      InFront T (hash :: ts) q s := by
  induction h with
  | here h =>
      cases h with
      | token hn hT hrest =>
      rw [TokenStream.takeSpace_of_token hn, if_neg (by simp [Token.not_isSpace_of_isHash hhash])]
      exact ⟨[], _, rfl, .here (.token rfl hT hrest)⟩
  | @behind r r₁ s t hn h ih =>
      rw [TokenStream.takeSpace_of_token hn]
      split
      · obtain ⟨ws, q, hq, hfront⟩ := ih
        rw [hq]
        exact ⟨t :: ws, q, rfl, hfront⟩
      · exact ⟨[], _, rfl, h.unread [t]⟩

theorem takePunct (hhash : hash.isHash = true) (h : InFront T (hash :: ts) r s) :
    ∃ o q, TokenStream.takePunct (ascii "(") r = (.ok o, q) ∧ InFront T (hash :: ts) q s := by
  have hparen := Token.not_isPunct_of_isHash hhash (ascii "(") (by decide) (by decide)
  rw [TokenStream.takePunct, TokenStream.takeIf]
  cases h with
  | here h =>
      cases h with
      | token hn hT hrest =>
      rw [hn]
      exact ⟨none, _, if_neg (by simp [hparen]), .here (.token rfl hT hrest)⟩
  | @behind _ r₁ _ t hn h =>
      rw [hn]
      by_cases ht : t.isPunct (ascii "(") = true
      · exact ⟨some t, r₁, if_pos ht, h⟩
      · exact ⟨none, _, if_neg ht, h.unread [t]⟩

/-- What a source reaches is in front of it from the start. -/
theorem of_reaches {x y : σ} {us : List Token} (hx : Source.Reaches x us y)
    (h : InFront T ts (ofSource y) s) : InFront T ts (ofSource x) s := by
  induction hx with
  | refl => exact h
  | token hp _ ih => exact .behind (next_ofSource hp) (ih h)

/-- Arguments are closed in front of the hash, or it is in one of them. -/
theorem collect (hhash : hash.isHash = true) (h : InFront T (hash :: ts) r s) {name : Token}
    {depth : Nat} {raw : List (List Token)} {q : Buffered σ}
    (hc : Arguments.collect name depth r = (.ok raw, q)) :
    InFront T (hash :: ts) q s ∨ ∃ a ∈ raw, hash ∈ a := by
  induction h generalizing depth raw with
  | here h =>
      cases h with
      | token hn hT hrest =>
      have hpunct := Token.not_isPunct_of_isHash hhash
      rw [Arguments.collect_of_token hn,
        if_neg (by simp [hpunct (ascii "(") (by decide) (by decide)]),
        if_neg (by simp [hpunct (ascii ")") (by decide) (by decide)]),
        if_neg (by simp [hpunct (ascii ",") (by decide) (by decide)])] at hc
      obtain ⟨as, -, rfl⟩ := except_map_eq_ok (Prod.mk.inj hc).1
      exact .inr (Arguments.mem_consFirst_self hash as)
  | @behind r r₁ s t hn h ih =>
      cases Arguments.collect_cases name depth t with
      | closed hclosed =>
          rw [hclosed hn] at hc
          cases hc
          exact .inl h
      | more d f hf hmore =>
          rw [hmore hn] at hc
          obtain ⟨hr, rfl⟩ := Prod.mk.inj hc
          obtain ⟨as, has, rfl⟩ := except_map_eq_ok hr
          exact (ih (Prod.ext has rfl)).imp_right hf

end InFront
end Buffered

namespace Expansion

variable {σ : Type} [Tabled σ] {T : Table} {hash : Token} {ts : List Token} {s r : Buffered σ}

/-- A step in front of a hash: it stays there, it takes the hash into an argument, or it fails. -/
inductive Step.Stays (T : Table) (hash : Token) (ts : List Token) (s : Buffered σ) :
    Step (Buffered σ) → Prop where
  | stop {f r} : Stays T hash ts s (.stop (.fault f) r)
  | emit {t op r} : r.InFront T (hash :: ts) s → Stays T hash ts s (.emit t op r)
  | call {m args r} : r.InFront T (hash :: ts) s → Stays T hash ts s (.call m args r)
  | taken {m args a r} : a ∈ args → hash ∈ a → Stays T hash ts s (.call m args r)

theorem stays_invocation (hhash : hash.isHash = true) (h : r.InFront T (hash :: ts) s) (m : Macro)
    (t : Token) : Step.Stays T hash ts s (invocation m t r) := by
  obtain ⟨ws, r₁, hspace, h₁⟩ := h.takeSpace hhash
  obtain ⟨o, r₂, hpunct, h₂⟩ := h₁.takePunct hhash
  simp only [invocation, hspace, hpunct]
  cases o with
  | none => exact .emit (h₂.unread ws)
  | some p =>
      simp only
      split
      · exact .stop
      · rename_i raw q hc
        split
        · exact .stop
        · rename_i args ha
          rcases h₂.collect hhash hc with hfront | ⟨a, hmem, hin⟩
          · exact .call hfront
          · have htrim := Token.mem_trim hin (Token.not_isSpace_of_isHash hhash)
            obtain ⟨b, hb, hin⟩ := Arguments.mem_of_assign ha (List.mem_map_of_mem hmem) htrim
            exact .taken hb hin

theorem stays_step (hhash : hash.isHash = true) {t : Token} {r₁ : Buffered σ}
    (hn : TokenStream.next r = .token t r₁) (h : r₁.InFront T (hash :: ts) s) :
    Step.Stays T hash ts s (step (fun r => Tabled.table r.source) false 0 [] r) := by
  simp only [step, hn]
  split
  · exact .emit h
  · split
    · exact .stop
    · split
      · rename_i hkeep
        cases hkeep.1
      · split
        · exact .emit h
        · split
          · exact .emit h
          · split
            · exact .stop
            · split
              · exact stays_invocation hhash h _ t
              · exact .call h

end Expansion

namespace ExpandedText

open Expansion
open Source (Reaches)

variable {σ : Type} [Tabled σ] {T : Table} {hash : Token} {ts : List Token} {s : Buffered σ}
  {x y : ExpandedText σ}

/-- The text invokes a macro next, with `t` in one of the arguments. -/
def Takes (t : Token) (x : ExpandedText σ) : Prop :=
  x.frames = [] ∧ ∃ m args a r,
    step (fun r => Tabled.table r.source) false 0 [] x.input = .call m args r ∧
      a ∈ args ∧ t ∈ a

/-- What a text in front of a hash does next. -/
inductive Approach (T : Table) (hash : Token) (ts : List Token) (s : Buffered σ)
    (x : ExpandedText σ) : Prop where
  | arrived {z : ExpandedText σ} : x.pull = z.pull → z.frames = [] →
      z.input.Reads T (hash :: ts) s → Approach T hash ts s x
  | taken {z : ExpandedText σ} : x.pull = z.pull → z.Takes hash → Approach T hash ts s x
  | token {t} {z : ExpandedText σ} : x.pull = .token t z → z.input.InFront T (hash :: ts) s →
      Approach T hash ts s x
  | failed {f z} : x.pull = .stop (.fault f) z → Approach T hash ts s x

theorem Approach.of_pull_eq {z : ExpandedText σ} (hp : x.pull = z.pull)
    (h : Approach T hash ts s z) : Approach T hash ts s x := by
  cases h with
  | arrived hz hf hr => exact .arrived (hp.trans hz) hf hr
  | taken hz ht => exact .taken (hp.trans hz) ht
  | token hz hr => exact .token (hp.trans hz) hr
  | failed hz => exact .failed (hp.trans hz)

/-- On the stack a text reads no input, so it stays in front of the hash. -/
theorem approach (hhash : hash.isHash = true) (h : x.input.InFront T (hash :: ts) s) :
    Approach T hash ts s x := by
  have hnext {r : Buffered σ} (hr : r.InFront T (hash :: ts) s) :
      r.Reads T (hash :: ts) s ∨
        Step.Stays T hash ts s (step (fun r => Tabled.table r.source) false 0 [] r) := by
    cases hr with
    | here hr => exact .inl hr
    | behind hn hr => exact .inr (stays_step hhash hn hr)
  fun_induction pull x with
  | case1 x hx e r hs =>
      rcases hnext h with hr | hstays
      · exact .arrived rfl hx hr
      · rw [hs] at hstays
        cases hstays
        exact .failed (pull_of_stop hx hs)
  | case2 x hx t op r hs =>
      rcases hnext h with hr | hstays
      · exact .arrived rfl hx hr
      · rw [hs] at hstays
        cases hstays with
        | emit hr => exact .token (pull_of_emit hx hs) hr
  | case3 x hx m args r hs e hb =>
      have hpull := pull_of_call hx hs
      rw [hb] at hpull
      exact .failed hpull
  | case4 x hx m args r hs body hb ih =>
      have hpull := pull_of_call hx hs
      rw [hb] at hpull
      rcases hnext h with hr | hstays
      · exact .arrived rfl hx hr
      · rw [hs] at hstays
        cases hstays with
        | call hr => exact (ih hr).of_pull_eq hpull
        | taken ha ht => exact .taken rfl ⟨hx, _, _, _, _, hs, ha, ht⟩
  | case5 x f fs hx rest hs ih => exact (ih h).of_pull_eq (pull_of_frame_stop hx hs)
  | case6 x f fs hx e rest hs => exact .failed (pull_of_frame_fault hx hs)
  | case7 x f fs hx t op rest hs => exact .token (pull_of_frame_emit hx hs) h
  | case8 x f fs hx m args rest hs e hb =>
      have hpull := pull_of_frame_call hx hs
      rw [hb] at hpull
      exact .failed hpull
  | case9 x f fs hx m args rest hs body hb ih =>
      have hpull := pull_of_frame_call hx hs
      rw [hb] at hpull
      exact (ih h).of_pull_eq hpull

/-- What becomes of the hash in the run of a text in front of it. The induction is on the run; the
tokens handed out before the hash is scanned are those of the steps that stay in front of it. -/
theorem arrives_of_runs (hhash : hash.isHash = true) {out : List Token} {e : End}
    (hrun : Runs x out e y) (h : x.input.InFront T (hash :: ts) s) :
    (∃ us ws z r, Reaches x us z ∧ z.input.InFront T (hash :: ts) s ∧ out = us ++ ws ∧
        r.Reads T (hash :: ts) s ∧ Runs ⟨r, []⟩ ws e y) ∨
      (∃ us z, ∃ z₁ : ExpandedText σ, Reaches x us z ∧ z.input.InFront T (hash :: ts) s ∧
        z.pull = z₁.pull ∧ z₁.Takes hash) ∨
      ∃ z f, Reaches x out z ∧ z.input.InFront T (hash :: ts) s ∧ e = .fault f ∧
        z.pull = .stop e y := by
  induction hrun with
  | @stop x e y hp =>
      cases approach hhash h with
      | @arrived z hz hf hr =>
          obtain ⟨r, frames⟩ := z
          cases hf
          exact .inl ⟨[], [], x, r, .refl, h, rfl, hr, .stop (hz.symm.trans hp)⟩
      | taken hz ht => exact .inr (.inl ⟨[], x, _, .refl, h, hz, ht⟩)
      | token hz =>
          rw [show x.pull = _ from hp] at hz
          cases hz
      | failed hz =>
          rw [show x.pull = _ from hp] at hz
          cases hz
          exact .inr (.inr ⟨x, _, .refl, h, rfl, hp⟩)
  | @token x x₁ y t out e hp hrun ih =>
      cases approach hhash h with
      | @arrived z hz hf hr =>
          obtain ⟨r, frames⟩ := z
          cases hf
          exact .inl ⟨[], t :: out, x, r, .refl, h, rfl, hr, .token (hz.symm.trans hp) hrun⟩
      | taken hz ht => exact .inr (.inl ⟨[], x, _, .refl, h, hz, ht⟩)
      | failed hz =>
          rw [show x.pull = _ from hp] at hz
          cases hz
      | token hz hr =>
          rw [show x.pull = _ from hp] at hz
          cases hz
          rcases ih hr with
            ⟨us, ws, z, r, hz, hfront, rfl, hreads, hws⟩ | ⟨us, z, z₁, hz, htake⟩ |
            ⟨z, f, hz, hfail⟩
          · exact .inl ⟨t :: us, ws, z, r, .token hp hz, hfront, rfl, hreads, hws⟩
          · exact .inr (.inl ⟨t :: us, z, z₁, .token hp hz, htake⟩)
          · exact .inr (.inr ⟨z, f, .token hp hz, hfail⟩)

end ExpandedText
end CPreprocessor

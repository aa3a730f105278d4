import CPreprocessor.TokenStream.Buffered

/-!
Reading a stream to its end gives its content. A run of a source hands out its tokens one after
the other, and every source has one.
-/

namespace CPreprocessor
namespace TokenStream

variable {ρ : Type} [TokenStream ρ]

theorem drain_of_token {r r' : ρ} {t : Token} (h : next r = .token t r') :
    drain r = ((drain r').1.prepend [t], (drain r').2) := by
  rw [drain]
  split <;> simp_all

theorem drain_of_stop {r r' : ρ} {e : End} (h : next r = .stop e r') :
    drain r = (⟨[], e.error?⟩, r') := by
  rw [drain]
  split <;> simp_all

theorem drain_fst (r : ρ) : (drain r).1 = ⟨(content r).1, (content r).2.error?⟩ := by
  fun_induction drain r with
  | case1 r t r' h out r'' hd ih =>
      obtain rfl : out = _ := by simpa only [hd] using ih
      rw [content_of_token h]
      rfl
  | case2 r e r' h => rw [(content_of_stop h).1]

end TokenStream

@[simp] theorem Buffered.content_ofSource {σ : Type} [Source σ] (s : σ) :
    TokenStream.content (Buffered.ofSource s) = Source.content s :=
  rfl

namespace Source

variable {σ : Type} [Source σ]

/-- From the first state the source hands out the tokens, and it ends with `e` in the second. -/
inductive Runs : σ → List Token → End → σ → Prop where
  | stop {s e s₁} : pull s = .stop e s₁ → Runs s [] e s₁
  | token {s s₁ s₂ t ts e} :
      pull s = .token t s₁ → Runs s₁ ts e s₂ → Runs s (t :: ts) e s₂

namespace Runs

variable {s s₁ s₂ : σ} {t : Token} {ts : List Token} {e : End}

theorem of_token (h : Runs s ts e s₂) (hp : pull s = .token t s₁) :
    ∃ us, ts = t :: us ∧ Runs s₁ us e s₂ := by
  cases h with
  | stop hs =>
      rw [hp] at hs
      cases hs
  | token ht h =>
      rw [hp] at ht
      cases ht
      exact ⟨_, rfl, h⟩

theorem of_stop (h : Runs s ts e s₂) {f : End} (hp : pull s = .stop f s₁) :
    ts = [] ∧ f = e ∧ s₁ = s₂ := by
  cases h with
  | stop hs =>
      rw [hp] at hs
      cases hs
      exact ⟨rfl, rfl, rfl⟩
  | token ht _ =>
      rw [hp] at ht
      cases ht

/-- A run depends on a source only by what it hands out next. -/
theorem of_pull_eq {s' : σ} (h : Runs s' ts e s₁) (hp : pull s = pull s') :
    Runs s ts e s₁ := by
  cases h with
  | stop hs => exact .stop (hp.trans hs)
  | token ht h => exact .token (hp.trans ht) h

/-- A state has one run. -/
theorem unique {us : List Token} {f : End} (h : Runs s ts e s₁) (h' : Runs s us f s₂) :
    ts = us ∧ e = f ∧ s₁ = s₂ := by
  induction h generalizing us with
  | stop hp =>
      obtain ⟨rfl, rfl, rfl⟩ := h'.of_stop hp
      exact ⟨rfl, rfl, rfl⟩
  | token hp _ ih =>
      obtain ⟨vs, rfl, hvs⟩ := h'.of_token hp
      obtain ⟨rfl, rfl, rfl⟩ := ih hvs
      exact ⟨rfl, rfl, rfl⟩

/-- Every source comes to an end. -/
theorem exists_runs (s : σ) : ∃ ts e s₁, Runs s ts e s₁ := by
  refine WellFounded.induction (C := fun s => ∃ ts e s₁, Runs s ts e s₁) Source.wf s
    fun s ih => ?_
  cases hp : pull s with
  | stop e s₁ => exact ⟨[], e, s₁, .stop hp⟩
  | token t s₁ =>
      obtain ⟨ts, e, s₂, h⟩ := ih s₁ ⟨t, hp⟩
      exact ⟨t :: ts, e, s₂, .token hp h⟩

theorem content_eq (h : Runs s ts e s₁) : content s = (ts, e) := by
  induction h with
  | stop hp => exact content_of_stop hp
  | token hp _ ih => rw [content_of_token hp, ih]

/-- Reading a source through a buffer to its end is a run of it. -/
theorem drain (h : Runs s ts e s₁) :
    TokenStream.drain (Buffered.ofSource s) =
      (⟨ts, e.error?⟩, { source := s₁, ended := some e }) := by
  have hstop {s s₁ : σ} {e : End} (hp : pull s = .stop e s₁) :
      TokenStream.next (Buffered.ofSource s) = .stop e { source := s₁, ended := some e } := by
    simp only [TokenStream.next, Buffered.next, Buffered.ofSource, hp]
  have htoken {s s₁ : σ} {t : Token} (hp : pull s = .token t s₁) :
      TokenStream.next (Buffered.ofSource s) = .token t (Buffered.ofSource s₁) := by
    simp only [TokenStream.next, Buffered.next, Buffered.ofSource, hp]
  induction h with
  | stop hp => exact TokenStream.drain_of_stop (hstop hp)
  | token hp _ ih =>
      rw [TokenStream.drain_of_token (htoken hp), ih]
      rfl

end Runs

/-- The source hands out the tokens on its way from the first state to the second. -/
inductive Reaches : σ → List Token → σ → Prop where
  | refl {s} : Reaches s [] s
  | token {s s₁ s₂ t ts} :
      pull s = .token t s₁ → Reaches s₁ ts s₂ → Reaches s (t :: ts) s₂

/-- The next `n` tokens of a source and the state behind them. -/
def ahead : Nat → σ → Option (List Token × σ)
  | 0, s => some ([], s)
  | n + 1, s =>
    match pull s with
    | .stop _ _ => none
    | .token t s₁ => (ahead n s₁).map fun (ts, s₂) => (t :: ts, s₂)

theorem reaches_of_ahead {n : Nat} {s s₁ : σ} {ts : List Token}
    (h : ahead n s = some (ts, s₁)) :
    Reaches s ts s₁ := by
  induction n generalizing s ts with
  | zero =>
      cases h
      exact .refl
  | succ n ih =>
      rw [ahead] at h
      split at h
      · cases h
      · rename_i hp
        obtain ⟨⟨us, s₂⟩, hu, heq⟩ := Option.map_eq_some_iff.1 h
        cases heq
        exact .token hp (ih hu)

/-- The run of a source that is asked for tokens through `pull?`, if it is over after at most
`n` of them. -/
def runWithin (pull? : σ → Option (Pull σ)) : Nat → σ → Option (List Token × End × σ)
  | 0, _ => none
  | n + 1, s =>
    match pull? s with
    | none => none
    | some (.stop e s₁) => some ([], e, s₁)
    | some (.token t s₁) => (runWithin pull? n s₁).map fun (ts, e, s₂) => (t :: ts, e, s₂)

theorem runs_of_runWithin {pull? : σ → Option (Pull σ)}
    (hpull : ∀ {s p}, pull? s = some p → pull s = p) {n : Nat} {s s₁ : σ} {ts : List Token}
    {e : End} (h : runWithin pull? n s = some (ts, e, s₁)) : Runs s ts e s₁ := by
  induction n generalizing s ts with
  | zero => cases h
  | succ n ih =>
      rw [runWithin] at h
      split at h
      · cases h
      · rename_i hp
        cases h
        exact .stop (hpull hp)
      · rename_i hp
        obtain ⟨⟨us, f, s₂⟩, hr, heq⟩ := Option.map_eq_some_iff.1 h
        cases heq
        exact .token (hpull hp) (ih hr)

theorem content_of_runWithin {n : Nat} {s : σ} {ts : List Token} {e : End}
    (h : (runWithin (some ∘ pull) n s).map (fun (ts, e, _) => (ts, e)) = some (ts, e)) :
    content s = (ts, e) := by
  obtain ⟨⟨us, f, s₁⟩, hr, heq⟩ := Option.map_eq_some_iff.1 h
  cases heq
  exact (runs_of_runWithin (fun hp => Option.some.inj hp) hr).content_eq

end Source

end CPreprocessor

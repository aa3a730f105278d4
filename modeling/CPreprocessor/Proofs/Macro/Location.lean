import CPreprocessor.Proofs.Macro.Closure

/-!
Where the errors of an expansion stand. An invocation that fails is reported at the name of the
macro, two tokens that do not join at the first of them. Expansion places the tokens it makes at
tokens it has read, so the errors stand at places of the source and of the macro bodies.
-/

namespace CPreprocessor

open Error (Located)

variable {S : Pos → Prop}

/-- Expansion gives the tokens it makes the places of others. -/
theorem Token.closed_pos (S : Pos → Prop) : Token.Closed fun t => S t.pos where
  space h := h
  comma h := h
  string h _ := h
  paste h _ hp := by
    unfold Substitution.paste at hp
    split at hp
    · split at hp
      · cases hp
      · cases hp
        exact h
    · cases hp

namespace TokenStream

variable {ρ : Type} [TokenStream ρ] {R : ρ → Prop} {r s : ρ}

/-- Where the stream satisfies `R` its errors are located. -/
structure Locates (S : Pos → Prop) (R : ρ → Prop) : Prop where
  fault : ∀ {r s e}, R r → next r = .stop (.fault e) s → Located S e

theorem locates_list (R : List Token → Prop) : Locates S R where
  fault {r _ _} _ hn := by cases r <;> cases hn

variable (hK : Keeps (fun t => S t.pos) R) (hL : Locates S R)
include hK hL

theorem Locates.takeSpace {nl : Bool} {ws : List Token} {e : Error} (h : R r)
    (hs : takeSpace nl r = (⟨ws, some e⟩, s)) : Located S e := by
  fun_induction TokenStream.takeSpace nl r generalizing ws with
  | case1 r t r₁ hn ht out r₂ hr ih =>
      obtain ⟨us, f⟩ := out
      cases hs
      exact ih (hK.token h hn).2 hr
  | case2 => cases hs
  | case3 r f r₁ hn =>
      cases f with
      | eof => cases hs
      | fault f =>
          cases hs
          exact hL.fault h hn

omit hK in
theorem Locates.takeIf {p : Token → Bool} {e : Error} (h : R r)
    (hs : takeIf p r = (.error e, s)) : Located S e := by
  unfold TokenStream.takeIf at hs
  split at hs
  · split at hs <;> cases hs
  · cases hs
  · rename_i hn
    cases hs
    exact hL.fault h hn

end TokenStream

namespace Arguments

open TokenStream (Keeps Locates)

variable {ρ : Type} [TokenStream ρ] {R : ρ → Prop} {name : Token}

theorem located_collect (hK : Keeps (fun t => S t.pos) R) (hL : Locates S R) (hname : S name.pos)
    {depth : Nat} {r : ρ} (h : R r) : FailsIn (Located S) (collect name depth r).1 := by
  fun_induction collect name depth r with
  | case1 => exact .error (.here hname _)
  | case2 _ r e r₁ hn => exact .error (hL.fault h hn)
  | case3 _ r t r₁ hn _ args r₂ hr ih | case5 _ r t r₁ hn _ _ _ args r₂ hr ih
  | case6 _ r t r₁ hn _ _ _ args r₂ hr ih | case7 _ r t r₁ hn _ _ _ args r₂ hr ih =>
      rw [hr] at ih
      exact (ih (hK.token h hn).2).map _
  | case4 => exact .ok _

theorem located_assign (hname : S name.pos) (m : Macro) (raw : List (List Token)) :
    FailsIn (Located S) (assign m name raw) := by
  unfold assign
  simp only
  split
  · split
    · exact .ok _
    · exact .error (.here hname _)
  · split
    · split
      · exact .error (.here hname _)
      · exact .ok _
    · split
      · exact .error (.here hname _)
      · split
        · exact .error (.here hname _)
        · exact .ok _

end Arguments

namespace Expansion

open TokenStream (Keeps Locates)

variable {ρ : Type} [TokenStream ρ] {R : ρ → Prop} {r s : ρ} {e : Error}

theorem located_invocation (hK : Keeps (fun t => S t.pos) R) (hL : Locates S R) {m : Macro}
    {t : Token} (ht : S t.pos) (h : R r) (hs : invocation m t r = .stop (.fault e) s) :
    Located S e := by
  unfold invocation at hs
  split at hs
  · rename_i hsp
    cases hs
    exact hL.takeSpace hK h hsp
  · rename_i hsp
    have h₁ := (hK.takeSpace h hsp).2
    split at hs
    · rename_i hp
      cases hs
      exact hL.takeIf h₁ hp
    · cases hs
    · rename_i hp
      have h₂ := hK.takeIf h₁ hp
      split at hs
      · rename_i hc
        cases hs
        exact Arguments.located_collect hK hL ht h₂ _ (congrArg Prod.fst hc)
      · split at hs
        · rename_i ha
          cases hs
          exact Arguments.located_assign ht m _ _ ha
        · cases hs

theorem located_afterDefined (hK : Keeps (fun t => S t.pos) R) (hL : Locates S R) (h : R r)
    {ts : List Token} (hs : afterDefined r = (⟨ts, some e⟩, s)) : Located S e := by
  fun_induction afterDefined r generalizing ts with
  | case1 r f r₁ hn =>
      cases f with
      | eof => cases hs
      | fault f =>
          cases hs
          exact hL.fault h hn
  | case2 => cases hs
  | case3 r t r₁ hn _ _ out r₂ hd ih =>
      obtain ⟨us, f⟩ := out
      cases hs
      exact ih (hK.token h hn).2 hd
  | case4 => cases hs

theorem located_step (hK : Keeps (fun t => S t.pos) R) (hL : Locates S R) {table : ρ → Table}
    {keep : Bool} {depth : Nat} {ctx : Context} (h : R r)
    (hs : step table keep depth ctx r = .stop (.fault e) s) : Located S e := by
  unfold step at hs
  split at hs
  · rename_i hn
    cases hs
    exact hL.fault h hn
  · rename_i t r₁ hn
    obtain ⟨ht, h₁⟩ := hK.token h hn
    split at hs
    · cases hs
    · split at hs
      · cases hs
        exact .here ht _
      · split at hs
        · split at hs
          · rename_i hd
            cases hs
            exact located_afterDefined hK hL h₁ hd
          · cases hs
        · split at hs
          · cases hs
          · split at hs
            · cases hs
            · split at hs
              · cases hs
                exact .here ht _
              · split at hs
                · exact located_invocation hK hL ht h₁ hs
                · cases hs

end Expansion

namespace Substitution

theorem located_paste {l : Token} (h : S l.pos) (r : Token) : FailsIn (Located S) (paste l r) := by
  unfold paste
  split
  · split
    · exact .error (.here h _)
    · exact .ok _
  · exact .error (.here h _)

theorem Draft.located_join {d : Draft} (h : ∀ t ∈ d.done, S t.pos) (ts : List Token) :
    FailsIn (Located S) (d.join ts) := by
  unfold join
  split
  · exact .ok _
  · split
    · rename_i t ts last done hd
      rw [hd] at h
      exact (located_paste (List.forall_mem_cons.1 h).1 t).bind fun _ _ => .ok _
    · exact .ok _

theorem located_assemble {d : Draft} (h : ∀ t ∈ d.done, S t.pos) {els : List Element}
    (hels : ∀ el ∈ els, ∀ t ∈ el.toTokens, S t.pos) :
    FailsIn (Located S) (assemble d els) := by
  have hP := Token.closed_pos S
  fun_induction assemble d els with
  | case1 | case3 => exact .ok _
  | case2 d space ts els ih =>
      obtain ⟨hts, hels⟩ := List.forall_mem_cons.1 hels
      exact ih (Draft.all_addAll (d := { d with space := d.space || space }) hP h hts) hels
  | case4 d el els ih =>
      obtain ⟨-, hels⟩ := List.forall_mem_cons.1 hels
      obtain ⟨hel, hels⟩ := List.forall_mem_cons.1 hels
      exact (Draft.located_join h _).bind fun d₁ hj => ih d₁ (Draft.all_join hP h hel hj) hels

theorem located_substitute {m : Macro} (hm : ∀ t ∈ m.body, S t.pos) {args : List Argument}
    (hargs : ∀ a ∈ args, a.All fun t => S t.pos) : FailsIn (Located S) (substitute m args) := by
  have hbind : ∀ x ∈ m.params.zip args, x.2.All fun t => S t.pos :=
    fun x hx => hargs x.2 (List.of_mem_zip hx).2
  refine (located_assemble (by simp) ?_).bind fun _ _ => .ok _
  exact all_elements (Token.closed_pos S) hbind hm

end Substitution

namespace Expansion

variable {T : Table} (hT : T.All fun t => S t.pos) {keep : Bool}

theorem located_expandArguments {expand : List Token → Output}
    (hexpand : ∀ ts, (∀ t ∈ ts, S t.pos) → ∀ e, (expand ts).error = some e →
      Located S e)
    {raw : List (List Token)} (h : ∀ a ∈ raw, ∀ t ∈ a, S t.pos) :
    FailsIn (Located S) (expandArguments expand raw) := by
  induction raw with
  | nil => exact .ok _
  | cons a raw ih =>
      obtain ⟨ha, hraw⟩ := List.forall_mem_cons.1 h
      rw [expandArguments]
      split
      · rename_i hx
        exact .error (hexpand a ha _ (congrArg Output.error hx))
      · exact (ih hraw).map _

include hT

theorem located_replacement_of {depth : Nat}
    (hexpand : ∀ ts, (∀ t ∈ ts, S t.pos) →
      ∀ e, (expandAt T keep (depth + 1) [] ts).error = some e → Located S e)
    {m : Macro} (hm : ∀ t ∈ m.body, S t.pos) {args : List (List Token)}
    (hargs : ∀ a ∈ args, ∀ t ∈ a, S t.pos) :
    FailsIn (Located S) (replacement T keep depth m args) := by
  refine (located_expandArguments hexpand hargs).bind fun as has => ?_
  refine Substitution.located_substitute hm (all_expandArguments (fun ts hts => ?_) hargs has)
  exact all_expandAt (Token.closed_pos S) hT hts

theorem located_expandAt {depth : Nat} {ctx : Context} {ts : List Token}
    (h : ∀ t ∈ ts, S t.pos) {e : Error} (he : (expandAt T keep depth ctx ts).error = some e) :
    Located S e := by
  have hP := Token.closed_pos S
  have hK := TokenStream.keeps_list (P := fun t => S t.pos)
  have hstep (depth : Nat) (ctx : Context) {ts : List Token} (h : ∀ t ∈ ts, S t.pos) :
      Step.All (fun t => S t.pos) (fun us => ∀ t ∈ us, S t.pos)
        (step (fun _ => T) keep depth ctx ts) :=
    all_step hP hK (fun _ => hT) keep depth ctx h
  fun_induction expandAt T keep depth ctx ts generalizing e with
  | case1 depth ctx ts f rest hs =>
      cases f with
      | eof => cases he
      | fault f =>
          cases he
          exact located_step hK (TokenStream.locates_list _) h hs
  | case2 depth ctx ts t op rest hs ih =>
      have hall := hstep depth ctx h
      rw [hs] at hall
      cases hall with
      | emit _ _ hrest => exact ih hrest he
  | case3 depth ctx ts m args rest hs _ f hb iha =>
      have hall := hstep depth ctx h
      rw [hs] at hall
      cases he
      cases hall with
      | call hm hargs _ =>
          exact located_replacement_of hT (fun a ha _ => iha a ha) hm hargs _ hb
  | case4 depth ctx ts m args rest hs _ body hb out f hx iha ihb =>
      have hall := hstep depth ctx h
      rw [hs] at hall
      cases hall with
      | call hm hargs _ =>
          have hbody := all_replacement hP hT hm hargs hb
          rw [hx] at ihb
          exact ihb hbody he
  | case5 depth ctx ts m args rest hs _ body hb out hx iha ihb ihr =>
      have hall := hstep depth ctx h
      rw [hs] at hall
      cases hall with
      | call _ _ hrest => exact ihr hrest he

theorem located_replacement {depth : Nat} {m : Macro} (hm : ∀ t ∈ m.body, S t.pos)
    {args : List (List Token)} (hargs : ∀ a ∈ args, ∀ t ∈ a, S t.pos) :
    FailsIn (Located S) (replacement T keep depth m args) :=
  located_replacement_of hT (fun _ hts _ => located_expandAt hT hts) hm hargs

end Expansion

/-- Where the source satisfies `I` its errors are located. -/
structure Source.Locates {σ : Type} [Source σ] (S : Pos → Prop) (I : σ → Prop) : Prop where
  fault : ∀ {s s₁ e}, I s → Source.pull s = .stop (.fault e) s₁ → Located S e

variable {σ : Type} [Tabled σ] {I : σ → Prop}

namespace Buffered

/-- The tokens given back and the error that ended the source, if one did, are placed. -/
structure Placed (S : Pos → Prop) (I : σ → Prop) (r : Buffered σ) : Prop where
  all : r.All (fun t => S t.pos) I
  ended : ∀ e, r.ended = some (.fault e) → Located S e

omit [Tabled σ] in
theorem Placed.ofSource {s : σ} (h : I s) : (Buffered.ofSource s).Placed S I :=
  ⟨⟨fun _ ht => (nomatch ht), h⟩, fun _ hf => by cases hf⟩

variable (hI : Source.Keeps (fun t => S t.pos) I) (hL : Source.Locates S I)
include hI hL

theorem Placed.of_stop {r s : Buffered σ} {e : End} (h : r.Placed S I)
    (hn : TokenStream.next r = .stop e s) :
    s.Placed S I ∧ ∀ f, e = .fault f → Located S f := by
  have hall := (keeps hI).stop h.all hn
  obtain ⟨source, returned, ended⟩ := r
  cases returned with
  | cons u us => cases hn
  | nil =>
      cases ended with
      | some e' =>
          cases hn
          exact ⟨⟨hall, h.ended⟩, fun f hf => h.ended f (congrArg some hf)⟩
      | none =>
          simp only [TokenStream.next, next] at hn
          split at hn
          · cases hn
          · rename_i hp
            cases hn
            have hfault : ∀ f, e = .fault f → Located S f := by
              rintro f rfl
              exact hL.fault h.all.source hp
            exact ⟨⟨hall, fun f hf => hfault f (Option.some.inj hf)⟩, hfault⟩

theorem keeps_placed : TokenStream.Keeps (fun t => S t.pos) (Placed S I) where
  token {r s t} h hn := by
    obtain ⟨ht, hall⟩ := (keeps hI).token h.all hn
    refine ⟨ht, hall, ?_⟩
    obtain ⟨source, returned, ended⟩ := r
    cases returned with
    | cons u us =>
        cases hn
        exact h.ended
    | nil =>
        cases ended with
        | some e => cases hn
        | none =>
            simp only [TokenStream.next, next] at hn
            split at hn
            · cases hn
              exact h.ended
            · cases hn
  stop h hn := (h.of_stop hI hL hn).1
  unread h hts := ⟨(keeps hI).unread h.all hts, h.ended⟩

theorem locates_placed : TokenStream.Locates S (Placed S I) where
  fault h hn := (h.of_stop hI hL hn).2 _ rfl

end Buffered

namespace ExpandedText

open Expansion

/-- The input and the replacements waiting are placed. -/
def Placed (S : Pos → Prop) (I : σ → Prop) (x : ExpandedText σ) : Prop :=
  x.AllOver (fun t => S t.pos) (Buffered.Placed S I)

theorem keeps_placed (hI : Source.Keeps (fun t => S t.pos) I) (hL : Source.Locates S I) :
    Source.Keeps (fun t => S t.pos) (Placed S I : ExpandedText σ → Prop) :=
  .of_pull (allOver_pull (Token.closed_pos S) (Buffered.keeps_placed hI hL)
    fun h => hI.table h.all.source) fun h => hI.table h.input.all.source

theorem locates_placed (hI : Source.Keeps (fun t => S t.pos) I) (hL : Source.Locates S I) :
    Source.Locates S (Placed S I : ExpandedText σ → Prop) where
  fault {x y e} h hp := by
    have hP := Token.closed_pos S
    have hK := Buffered.keeps_placed hI hL
    have hT {r : Buffered σ} (h : r.Placed S I) := hI.table h.all.source
    change x.pull = _ at hp
    fun_induction pull x with
    | case1 x hx f r hs =>
        cases hp
        exact located_step hK (Buffered.locates_placed hI hL) h.input hs
    | case2 | case7 => cases hp
    | case3 x hx m args r hs f hb =>
        have hall := all_step_input hP hK hT h.input
        rw [hs] at hall
        cases hp
        cases hall with
        | call hm hargs hr => exact located_replacement (hT hr) hm hargs _ hb
    | case4 x hx m args r hs body hb ih =>
        have hall := all_step_input hP hK hT h.input
        rw [hs] at hall
        cases hall with
        | call hm hargs hr =>
            have hbody := all_replacement hP (hT hr) hm hargs hb
            exact ih ⟨hr, List.forall_mem_singleton.2 hbody⟩ hp
    | case5 x f fs hx rest hs ih => exact ih ⟨h.input, (all_step_frame hP hT h hx).2⟩ hp
    | case6 x f fs hx f' rest hs =>
        cases hp
        have hframes := h.frames
        rw [hx] at hframes
        exact located_step TokenStream.keeps_list (TokenStream.locates_list _)
          (List.forall_mem_cons.1 hframes).1 hs
    | case8 x f fs hx m args rest hs f' hb =>
        obtain ⟨hall, -⟩ := all_step_frame hP hT h hx
        rw [hs] at hall
        cases hp
        cases hall with
        | call hm hargs _ => exact located_replacement (hT h.input) hm hargs _ hb
    | case9 x f fs hx m args rest hs body hb ih =>
        obtain ⟨hall, hfs⟩ := all_step_frame hP hT h hx
        rw [hs] at hall
        cases hall with
        | call hm hargs hrest =>
            have hbody := all_replacement hP (hT h.input) hm hargs hb
            exact ih
              ⟨h.input, List.forall_mem_cons.2 ⟨hbody,
                List.forall_mem_cons.2 ⟨hrest, hfs⟩⟩⟩ hp

end ExpandedText

/-- The error that ends a run from a state of `I` is located. -/
theorem Source.Locates.runs (hI : Source.Keeps (fun t => S t.pos) I) (hL : Source.Locates S I)
    {s s₁ : σ} {ts : List Token} {e : Error} (h : Source.Runs s ts (.fault e) s₁) (hs : I s) :
    Located S e := by
  generalize hend : End.fault e = end' at h
  induction h with
  | stop hp =>
      subst hend
      exact hL.fault hs hp
  | token hp _ ih => exact ih (hI.token hs hp).2 hend

end CPreprocessor

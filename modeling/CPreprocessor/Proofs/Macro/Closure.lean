import CPreprocessor.Proofs.Macro.ExpandedText
import CPreprocessor.Proofs.TokenStream.Calls

/-!
Properties of tokens that expansion keeps. A property is closed if the tokens that expansion
makes have it, at the places of tokens that have it: single spaces, commas, strings, and tokens
that are joined. If the tokens of a source and of the macro bodies have such a property, then so
have all tokens of the expanded text.
-/

namespace CPreprocessor

/-- The tokens that expansion makes of tokens with the property have it. -/
structure Token.Closed (P : Token → Prop) : Prop where
  space : ∀ {t}, P t → P (Token.space t.pos)
  comma : ∀ {t}, P t → P (Arguments.comma t.pos)
  string : ∀ {t ts}, P t → (∀ u ∈ ts, P u) → P (Substitution.stringOf t.pos ts)
  paste : ∀ {l r t}, P l → P r → Substitution.paste l r = .ok t → P t

/-- The tokens of all bodies have the property. -/
def Table.All (P : Token → Prop) (T : Table) : Prop :=
  ∀ m ∈ T.entries, ∀ t ∈ m.body, P t

variable {P : Token → Prop}

theorem Table.All.of_lookup {T : Table} (h : T.All P) {name : Text} {m : Macro}
    (hm : T.lookup name = some m) : ∀ t ∈ m.body, P t :=
  h m (List.mem_of_find?_eq_some hm)

namespace Arguments

open TokenStream (Keeps)

variable {ρ : Type} [TokenStream ρ] {R : ρ → Prop} {r s : ρ}

theorem all_consFirst {t : Token} (ht : P t) {as : List (List Token)}
    (h : ∀ a ∈ as, ∀ u ∈ a, P u) : ∀ a ∈ consFirst t as, ∀ u ∈ a, P u := by
  cases as with
  | nil =>
      rw [consFirst, List.forall_mem_singleton, List.forall_mem_singleton]
      exact ht
  | cons a as =>
      obtain ⟨ha, has⟩ := List.forall_mem_cons.1 h
      exact List.forall_mem_cons.2 ⟨List.forall_mem_cons.2 ⟨ht, ha⟩, has⟩

theorem keeps_collect (hK : Keeps P R) {name : Token} {depth : Nat}
    {x : Except Error (List (List Token))} (h : R r) (hc : collect name depth r = (x, s)) :
    R s ∧ ∀ as, x = .ok as → ∀ a ∈ as, ∀ t ∈ a, P t := by
  have hcons {t : Token} {y : Except Error (List (List Token))} (ht : P t)
      (hy : ∀ as, y = .ok as → ∀ a ∈ as, ∀ u ∈ a, P u) :
      ∀ as, y.map (consFirst t) = .ok as → ∀ a ∈ as, ∀ u ∈ a, P u := by
    intro as has
    obtain ⟨bs, rfl, rfl⟩ := except_map_eq_ok has
    exact all_consFirst ht (hy bs rfl)
  fun_induction collect name depth r generalizing x with
  | case1 _ r r₁ hn | case2 _ r _ r₁ hn =>
      cases hc
      exact ⟨hK.stop h hn, fun as has => by cases has⟩
  | case3 _ r t r₁ hn _ args r₂ hr ih | case5 _ r t r₁ hn _ _ _ args r₂ hr ih
  | case7 _ r t r₁ hn _ _ _ args r₂ hr ih =>
      cases hc
      obtain ⟨ht, h₁⟩ := hK.token h hn
      obtain ⟨hR, hargs⟩ := ih h₁ hr
      exact ⟨hR, hcons ht hargs⟩
  | case4 r t r₁ hn _ _ =>
      cases hc
      refine ⟨(hK.token h hn).2, fun as has => ?_⟩
      cases has
      simp
  | case6 _ r t r₁ hn _ _ _ args r₂ hr ih =>
      cases hc
      obtain ⟨hR, hargs⟩ := ih (hK.token h hn).2 hr
      refine ⟨hR, fun as has => ?_⟩
      obtain ⟨bs, rfl, rfl⟩ := except_map_eq_ok has
      exact List.forall_mem_cons.2 ⟨by simp, hargs bs rfl⟩

theorem all_joined (hP : Token.Closed P) {name : Token} (hname : P name) {as : List (List Token)}
    (h : ∀ a ∈ as, ∀ t ∈ a, P t) : ∀ t ∈ joined name.pos as, P t := by
  fun_induction joined name.pos as with
  | case1 =>
      intro t ht
      cases ht
  | case2 a => exact h a List.mem_cons_self
  | case3 a as _ ih =>
      obtain ⟨ha, has⟩ := List.forall_mem_cons.1 h
      exact List.forall_mem_append.2 ⟨ha, List.forall_mem_cons.2 ⟨hP.comma hname, ih has⟩⟩

theorem all_assign (hP : Token.Closed P) {m : Macro} {name : Token} (hname : P name)
    {raw args : List (List Token)} (h : ∀ a ∈ raw, ∀ t ∈ a, P t)
    (ha : assign m name raw = .ok args) :
    ∀ a ∈ args, ∀ t ∈ a, P t := by
  unfold assign at ha
  simp only at ha
  split at ha
  · split at ha
    · cases ha
      intro a ha
      cases ha
    · cases ha
  · split at ha
    · split at ha
      · cases ha
      · cases ha
        refine List.forall_mem_append.2 ⟨fun a ha => h a (List.mem_of_mem_take ha), ?_⟩
        exact List.forall_mem_singleton.2
          (all_joined hP hname fun a ha => h a (List.mem_of_mem_drop ha))
    · split at ha
      · cases ha
      · split at ha
        · cases ha
        · cases ha
          exact h

end Arguments

namespace Expansion

open TokenStream (Keeps)

variable {ρ : Type} [TokenStream ρ] {R : ρ → Prop} {r : ρ}

/-- What a step hands out has the property, and the step ends in `R`. -/
inductive Step.All (P : Token → Prop) (R : ρ → Prop) : Step ρ → Prop where
  | stop {e s} : R s → All P R (.stop e s)
  | emit {t op s} : P t → (∀ u ∈ op, P u) → R s → All P R (.emit t op s)
  | call {m args s} : (∀ t ∈ m.body, P t) → (∀ a ∈ args, ∀ t ∈ a, P t) → R s →
      All P R (.call m args s)

theorem all_invocation (hP : Token.Closed P) (hK : Keeps P R) {m : Macro}
    (hm : ∀ t ∈ m.body, P t) {t : Token} (ht : P t) (h : R r) :
    Step.All P R (invocation m t r) := by
  have hnil : ∀ u ∈ ([] : List Token), P u := by simp
  unfold invocation
  split
  · rename_i hs
    exact .stop (hK.takeSpace h hs).2
  · rename_i hs
    obtain ⟨hws, h₁⟩ := hK.takeSpace h hs
    split
    · rename_i hp
      exact .stop (hK.takeIf h₁ hp)
    · rename_i hp
      exact .emit ht hnil (hK.unread (hK.takeIf h₁ hp) hws)
    · rename_i hp
      have h₂ := hK.takeIf h₁ hp
      split
      · rename_i hc
        exact .stop (Arguments.keeps_collect hK h₂ hc).1
      · rename_i raw r₃ hc
        obtain ⟨h₃, hraw⟩ := Arguments.keeps_collect hK h₂ hc
        split
        · exact .stop h₃
        · rename_i args ha
          refine .call hm (Arguments.all_assign hP ht ?_ ha) h₃
          intro a ha
          obtain ⟨b, hb, rfl⟩ := List.mem_map.1 ha
          exact Token.all_trim (hraw raw rfl b hb)

theorem all_afterDefined (hK : Keeps P R) (h : R r) :
    (∀ t ∈ (afterDefined r).1.tokens, P t) ∧ R (afterDefined r).2 := by
  fun_induction afterDefined r with
  | case1 r e r₁ hn => exact ⟨by simp, hK.stop h hn⟩
  | case2 r t r₁ hn _ =>
      obtain ⟨ht, h₁⟩ := hK.token h hn
      exact ⟨List.forall_mem_singleton.2 ht, h₁⟩
  | case3 r t r₁ hn _ _ out r₂ hd ih =>
      obtain ⟨ht, h₁⟩ := hK.token h hn
      have hout := ih h₁
      rw [hd] at hout
      exact ⟨List.forall_mem_cons.2 ⟨ht, hout.1⟩, hout.2⟩
  | case4 r t r₁ hn _ _ =>
      obtain ⟨ht, h₁⟩ := hK.token h hn
      exact ⟨by simp, hK.unread h₁ (List.forall_mem_singleton.2 ht)⟩

theorem all_step (hP : Token.Closed P) (hK : Keeps P R) {table : ρ → Table}
    (hT : ∀ {r}, R r → (table r).All P) (keep : Bool) (depth : Nat) (ctx : Context) (h : R r) :
    Step.All P R (step table keep depth ctx r) := by
  have hnil : ∀ u ∈ ([] : List Token), P u := by simp
  unfold step
  split
  · rename_i hn
    exact .stop (hK.stop h hn)
  · rename_i t r₁ hn
    obtain ⟨ht, h₁⟩ := hK.token h hn
    split
    · exact .emit ht hnil h₁
    · split
      · exact .stop h₁
      · split
        · have hop := all_afterDefined hK h₁
          split
          · rename_i hd
            rw [hd] at hop
            exact .stop hop.2
          · rename_i hd
            rw [hd] at hop
            exact .emit ht hop.1 hop.2
        · split
          · exact .emit ht hnil h₁
          · rename_i m hm
            have hbody := (hT h₁).of_lookup hm
            split
            · exact .emit ht hnil h₁
            · split
              · exact .stop h₁
              · split
                · exact all_invocation hP hK hbody ht h₁
                · exact .call hbody (by simp) h₁

end Expansion

/-- The tokens of an argument have the property, as written and expanded. -/
structure Argument.All (P : Token → Prop) (a : Argument) : Prop where
  written : ∀ t ∈ a.written, P t
  expanded : ∀ t ∈ a.expanded, P t

namespace Substitution

theorem all_of_argument? {args : Bindings} (h : ∀ x ∈ args, x.2.All P) {t : Token}
    {a : Argument} (ha : argument? args t = some a) : a.All P := by
  unfold argument? at ha
  split at ha
  · obtain ⟨us, vs, hargs, -⟩ := List.lookup_eq_some_iff.1 ha
    exact h (t.text, a) (by simp [hargs])
  · cases ha

theorem all_elements (hP : Token.Closed P) {m : Macro} {args : Bindings}
    (hargs : ∀ x ∈ args, x.2.All P) {space pasted : Bool} {body : List Token}
    (h : ∀ t ∈ body, P t) :
    ∀ el ∈ elements m args space pasted body, ∀ t ∈ el.toTokens, P t := by
  fun_induction elements m args space pasted body with
  | case1 =>
      intro el hel
      cases hel
  | case2 space pasted t ts _ ih => exact ih (List.forall_mem_cons.1 h).2
  | case3 space pasted t ts _ _ ih =>
      exact List.forall_mem_cons.2 ⟨by simp [Element.toTokens], ih (List.forall_mem_cons.1 h).2⟩
  | case4 space pasted t ts _ _ a rest hs ih =>
      unfold stringized? at hs
      split at hs
      · split at hs
        · rename_i p r hd
          obtain ⟨b, hb, he⟩ := Option.map_eq_some_iff.1 hs
          cases he
          have hsub := List.dropWhile_suffix (l := ts) Token.isSpace
          rw [hd] at hsub
          refine List.forall_mem_cons.2 ⟨List.forall_mem_singleton.2
            (hP.string (List.forall_mem_cons.1 h).1 (all_of_argument? hargs hb).written),
            ih fun u hu => ?_⟩
          exact (List.forall_mem_cons.1 h).2 u (hsub.subset (List.mem_cons_of_mem p hu))
        · cases hs
      · cases hs
  | case5 space pasted t ts _ _ _ ts' ih =>
      obtain ⟨ht, hts⟩ := List.forall_mem_cons.1 h
      refine List.forall_mem_cons.2 ⟨?_, ih hts⟩
      change ∀ u ∈ ts', P u
      simp only [ts']
      split
      · rename_i a ha
        have hall := all_of_argument? hargs ha
        split
        · exact hall.written
        · exact hall.expanded
      · exact List.forall_mem_singleton.2 ht

namespace Draft

variable {d : Draft}

theorem all_add (hP : Token.Closed P) (h : ∀ t ∈ d.done, P t) {t : Token} (ht : P t) :
    ∀ u ∈ (d.add t).done, P u := by
  unfold add
  split
  · exact h
  · refine List.forall_mem_cons.2 ⟨ht, List.forall_mem_append.2 ⟨?_, h⟩⟩
    split
    · exact List.forall_mem_singleton.2 (hP.space ht)
    · intro u hu
      cases hu

theorem all_foldl_add (hP : Token.Closed P) (h : ∀ t ∈ d.done, P t) {ts : List Token}
    (hts : ∀ t ∈ ts, P t) : ∀ u ∈ (ts.foldl add d).done, P u := by
  induction ts generalizing d with
  | nil => exact h
  | cons t ts ih =>
      obtain ⟨ht, hts⟩ := List.forall_mem_cons.1 hts
      exact ih (all_add hP h ht) hts

theorem all_addAll (hP : Token.Closed P) (h : ∀ t ∈ d.done, P t) {ts : List Token}
    (hts : ∀ t ∈ ts, P t) : ∀ u ∈ (d.addAll ts).done, P u :=
  all_foldl_add (d := { d with blank := true }) hP h hts

theorem all_join (hP : Token.Closed P) (h : ∀ t ∈ d.done, P t) {ts : List Token}
    (hts : ∀ t ∈ ts, P t) {d' : Draft} (hj : d.join ts = .ok d') : ∀ u ∈ d'.done, P u := by
  unfold join at hj
  split at hj
  · cases hj
    exact all_addAll hP h hts
  · split at hj
    · rename_i t ts last done hd
      obtain ⟨joined, hpaste, hj⟩ := except_bind_eq_ok hj
      cases hj
      obtain ⟨ht, hts⟩ := List.forall_mem_cons.1 hts
      rw [hd] at h
      obtain ⟨hlast, hdone⟩ := List.forall_mem_cons.1 h
      refine all_foldl_add hP ?_ hts
      exact List.forall_mem_cons.2 ⟨hP.paste hlast ht hpaste, hdone⟩
    · cases hj
      exact h

end Draft

theorem all_assemble (hP : Token.Closed P) {d d' : Draft} (h : ∀ t ∈ d.done, P t)
    {els : List Element} (hels : ∀ el ∈ els, ∀ t ∈ el.toTokens, P t)
    (ha : assemble d els = .ok d') : ∀ u ∈ d'.done, P u := by
  fun_induction assemble d els with
  | case1 | case3 =>
      cases ha
      exact h
  | case2 d space ts els ih =>
      obtain ⟨hts, hels⟩ := List.forall_mem_cons.1 hels
      exact ih (Draft.all_addAll (d := { d with space := d.space || space }) hP h hts) hels ha
  | case4 d el els ih =>
      obtain ⟨d₁, hj, ha⟩ := except_bind_eq_ok ha
      obtain ⟨-, hels⟩ := List.forall_mem_cons.1 hels
      obtain ⟨hel, hels⟩ := List.forall_mem_cons.1 hels
      exact ih d₁ (Draft.all_join hP h hel hj) hels ha

theorem all_substitute (hP : Token.Closed P) {m : Macro} (hm : ∀ t ∈ m.body, P t)
    {args : List Argument} (hargs : ∀ a ∈ args, a.All P) {ts : List Token}
    (hs : substitute m args = .ok ts) : ∀ t ∈ ts, P t := by
  obtain ⟨d, hd, hs⟩ := except_bind_eq_ok hs
  cases hs
  have hbind : ∀ x ∈ m.params.zip args, x.2.All P :=
    fun x hx => hargs x.2 (List.of_mem_zip hx).2
  have hdone := all_assemble hP (by simp) (all_elements hP hbind hm) hd
  exact fun t ht => hdone t (List.mem_reverse.1 ht)

end Substitution

namespace Expansion

theorem all_expandArguments {expand : List Token → Output}
    (hexpand : ∀ ts, (∀ t ∈ ts, P t) → ∀ t ∈ (expand ts).tokens, P t)
    {raw : List (List Token)} (h : ∀ a ∈ raw, ∀ t ∈ a, P t) {args : List Argument}
    (ha : expandArguments expand raw = .ok args) : ∀ a ∈ args, a.All P := by
  induction raw generalizing args with
  | nil =>
      cases ha
      intro a ha
      cases ha
  | cons a raw ih =>
      obtain ⟨ha', hraw⟩ := List.forall_mem_cons.1 h
      have hout := hexpand a ha'
      rw [expandArguments] at ha
      split at ha
      · cases ha
      · rename_i expanded hx
        obtain ⟨args', hargs, rfl⟩ := except_map_eq_ok ha
        rw [hx] at hout
        exact List.forall_mem_cons.2 ⟨⟨ha', hout⟩, ih hraw hargs⟩

theorem all_replacement_of (hP : Token.Closed P) {T : Table} {keep : Bool} {depth : Nat}
    (hexpand : ∀ ts, (∀ t ∈ ts, P t) →
      ∀ t ∈ (expandAt T keep (depth + 1) [] ts).tokens, P t)
    {m : Macro} (hm : ∀ t ∈ m.body, P t) {args : List (List Token)}
    (hargs : ∀ a ∈ args, ∀ t ∈ a, P t) {ts : List Token}
    (hr : replacement T keep depth m args = .ok ts) : ∀ t ∈ ts, P t := by
  obtain ⟨as, has, hr⟩ := except_bind_eq_ok hr
  exact Substitution.all_substitute hP hm (all_expandArguments hexpand hargs has) hr

theorem all_expandAt (hP : Token.Closed P) {T : Table} (hT : T.All P) {keep : Bool} {depth : Nat}
    {ctx : Context} {ts : List Token} (h : ∀ t ∈ ts, P t) :
    ∀ t ∈ (expandAt T keep depth ctx ts).tokens, P t := by
  have hstep (depth : Nat) (ctx : Context) (ts : List Token) (h : ∀ t ∈ ts, P t) :
      Step.All P (fun us => ∀ t ∈ us, P t) (step (fun _ => T) keep depth ctx ts) :=
    all_step hP TokenStream.keeps_list (fun _ => hT) keep depth ctx h
  fun_induction expandAt T keep depth ctx ts with
  | case1 depth ctx ts e rest hs => simp
  | case2 depth ctx ts t op rest hs ih =>
      have hall := hstep depth ctx ts h
      rw [hs] at hall
      cases hall with
      | emit ht hop hrest =>
          exact List.forall_mem_append.2 ⟨List.forall_mem_cons.2 ⟨ht, hop⟩, ih hrest⟩
  | case3 depth ctx ts m args rest hs _ e hb iha => simp
  | case4 depth ctx ts m args rest hs _ body hb out e hx iha ihb =>
      have hall := hstep depth ctx ts h
      rw [hs] at hall
      cases hall with
      | call hm hargs _ =>
          have hout := ihb (all_replacement_of hP (fun _ => iha _) hm hargs hb)
          rwa [hx] at hout
  | case5 depth ctx ts m args rest hs _ body hb out hx iha ihb ihr =>
      have hall := hstep depth ctx ts h
      rw [hs] at hall
      cases hall with
      | call hm hargs hrest =>
          have hout := ihb (all_replacement_of hP (fun _ => iha _) hm hargs hb)
          rw [hx] at hout
          exact List.forall_mem_append.2 ⟨hout, ihr hrest⟩

theorem all_replacement (hP : Token.Closed P) {T : Table} (hT : T.All P) {keep : Bool}
    {depth : Nat} {m : Macro} (hm : ∀ t ∈ m.body, P t) {args : List (List Token)}
    (hargs : ∀ a ∈ args, ∀ t ∈ a, P t) {ts : List Token}
    (hr : replacement T keep depth m args = .ok ts) : ∀ t ∈ ts, P t :=
  all_replacement_of hP (fun _ => all_expandAt hP hT) hm hargs hr

end Expansion

/-- The source keeps `S`; its tokens and its macros have the property `P`. -/
structure Source.Keeps {σ : Type} [Tabled σ] (P : Token → Prop) (S : σ → Prop) : Prop where
  token : ∀ {s s₁ t}, S s → Source.pull s = .token t s₁ → P t ∧ S s₁
  stop : ∀ {s s₁ e}, S s → Source.pull s = .stop e s₁ → S s₁
  table : ∀ {s}, S s → (Tabled.table s).All P

variable {σ : Type} [Tabled σ] {S : σ → Prop}

theorem Source.Keeps.of_pull
    (hpull : ∀ {s}, S s → (∀ t s₁, Source.pull s = .token t s₁ → P t) ∧
      S (Source.pull s).state)
    (htable : ∀ {s}, S s → (Tabled.table s).All P) : Source.Keeps P S where
  token {s s₁ t} h hp := by
    obtain ⟨ht, hs⟩ := hpull h
    rw [hp] at hs
    exact ⟨ht t s₁ hp, hs⟩
  stop {s s₁ e} h hp := by
    have hs := (hpull h).2
    rwa [hp] at hs
  table := htable

/-- The source of the buffer keeps `S`, and the tokens given back have the property. -/
structure Buffered.All (P : Token → Prop) (S : σ → Prop) (r : Buffered σ) : Prop where
  returned : ∀ t ∈ r.returned, P t
  source : S r.source

theorem Buffered.keeps (hS : Source.Keeps P S) :
    TokenStream.Keeps P (Buffered.All P S) where
  token {r s t} h hn := by
    obtain ⟨source, returned, ended⟩ := r
    obtain ⟨hret, hsrc⟩ := h
    cases returned with
    | cons u us =>
        cases hn
        obtain ⟨ht, hus⟩ := List.forall_mem_cons.1 hret
        exact ⟨ht, hus, hsrc⟩
    | nil =>
        cases ended with
        | some e => cases hn
        | none =>
            simp only [TokenStream.next, next] at hn
            split at hn
            · rename_i hp
              cases hn
              obtain ⟨ht, hs⟩ := hS.token hsrc hp
              exact ⟨ht, hret, hs⟩
            · cases hn
  stop {r s e} h hn := by
    obtain ⟨source, returned, ended⟩ := r
    obtain ⟨hret, hsrc⟩ := h
    cases returned with
    | cons u us => cases hn
    | nil =>
        cases ended with
        | some e =>
            cases hn
            exact ⟨hret, hsrc⟩
        | none =>
            simp only [TokenStream.next, next] at hn
            split at hn
            · cases hn
            · rename_i hp
              cases hn
              exact ⟨hret, hS.stop hsrc hp⟩
  unread h hts := ⟨List.forall_mem_append.2 ⟨hts, h.returned⟩, h.source⟩

namespace ExpandedText

open Expansion

/-- The input has the property, and so have the replacements waiting. -/
structure All (P : Token → Prop) (S : σ → Prop) (x : ExpandedText σ) : Prop where
  input : x.input.All P S
  frames : ∀ f ∈ x.frames, ∀ t ∈ f.rest, P t

omit [Tabled σ] in
theorem All.ofSource {s : σ} (h : S s) : (ofSource s).All P S :=
  ⟨⟨fun _ ht => (nomatch ht), h⟩, fun _ hf => nomatch hf⟩

/-- The input satisfies `R`, and the replacements waiting have the property. -/
structure AllOver (P : Token → Prop) (R : Buffered σ → Prop) (x : ExpandedText σ) : Prop where
  input : R x.input
  frames : ∀ f ∈ x.frames, ∀ t ∈ f.rest, P t

section Over

variable {R : Buffered σ → Prop} (hP : Token.Closed P) (hK : TokenStream.Keeps P R)
  (hT : ∀ {r}, R r → (Tabled.table r.source).All P) {x : ExpandedText σ}
include hP hK hT

theorem all_step_input (h : R x.input) :
    Step.All P R (step (fun r => Tabled.table r.source) false 0 [] x.input) :=
  all_step hP hK hT false 0 [] h

omit hK in
theorem all_step_frame (h : x.AllOver P R) {f : Frame} {fs : List Frame}
    (hx : x.frames = f :: fs) :
    Step.All P (fun us => ∀ t ∈ us, P t)
      (step (fun _ => x.table) false (fs.length + 1) f.context f.rest) ∧
      ∀ f ∈ fs, ∀ t ∈ f.rest, P t := by
  have hframes := h.frames
  rw [hx] at hframes
  obtain ⟨hf, hfs⟩ := List.forall_mem_cons.1 hframes
  exact ⟨all_step hP TokenStream.keeps_list (fun _ => hT h.input) false _ _ hf, hfs⟩

/-- What is handed out has the property, and all that is left has. -/
theorem allOver_pull (h : x.AllOver P R) :
    (∀ t y, x.pull = .token t y → P t) ∧ x.pull.state.AllOver P R := by
  fun_induction pull x with
  | case1 x hx e r hs =>
      have hall := all_step_input hP hK hT h.input
      rw [hs] at hall
      cases hall with
      | stop hr => exact ⟨fun t y hp => (by cases hp), hr, h.frames⟩
  | case2 x hx t op r hs =>
      have hall := all_step_input hP hK hT h.input
      rw [hs] at hall
      cases hall with
      | emit ht _ hr =>
          refine ⟨fun u y hp => ?_, hr, h.frames⟩
          cases hp
          exact ht
  | case3 x hx m args r hs e hb =>
      have hall := all_step_input hP hK hT h.input
      rw [hs] at hall
      cases hall with
      | call _ _ hr => exact ⟨fun t y hp => (by cases hp), hr, h.frames⟩
  | case4 x hx m args r hs body hb ih =>
      have hall := all_step_input hP hK hT h.input
      rw [hs] at hall
      cases hall with
      | call hm hargs hr =>
          have hbody := all_replacement hP (hT hr) hm hargs hb
          exact ih ⟨hr, List.forall_mem_singleton.2 hbody⟩
  | case5 x f fs hx rest hs ih => exact ih ⟨h.input, (all_step_frame hP hT h hx).2⟩
  | case6 x f fs hx e rest hs => exact ⟨fun t y hp => (by cases hp), h⟩
  | case7 x f fs hx t op rest hs =>
      obtain ⟨hall, hfs⟩ := all_step_frame hP hT h hx
      rw [hs] at hall
      cases hall with
      | emit ht _ hrest =>
          refine ⟨fun u y hp => ?_, h.input, List.forall_mem_cons.2 ⟨hrest, hfs⟩⟩
          cases hp
          exact ht
  | case8 x f fs hx m args rest hs e hb => exact ⟨fun t y hp => (by cases hp), h⟩
  | case9 x f fs hx m args rest hs body hb ih =>
      obtain ⟨hall, hfs⟩ := all_step_frame hP hT h hx
      rw [hs] at hall
      cases hall with
      | call hm hargs hrest =>
          have hbody := all_replacement hP (hT h.input) hm hargs hb
          exact ih ⟨h.input, List.forall_mem_cons.2 ⟨hbody,
            List.forall_mem_cons.2 ⟨hrest, hfs⟩⟩⟩

end Over

theorem all_pull (hP : Token.Closed P) (hS : Source.Keeps P S) {x : ExpandedText σ}
    (h : x.All P S) : (∀ t y, x.pull = .token t y → P t) ∧ x.pull.state.All P S := by
  obtain ⟨htoken, hinput, hframes⟩ :=
    allOver_pull hP (Buffered.keeps hS) (fun h => hS.table h.source) ⟨h.input, h.frames⟩
  exact ⟨htoken, hinput, hframes⟩

theorem keeps (hP : Token.Closed P) (hS : Source.Keeps P S) :
    Source.Keeps P (All P S : ExpandedText σ → Prop) :=
  .of_pull (all_pull hP hS) fun h => hS.table h.input.source

end ExpandedText

/-- What holds at every token holds of a whole run. -/
theorem Source.Keeps.runs (hS : Source.Keeps P S) {s s₁ : σ} {ts : List Token} {e : End}
    (h : Source.Runs s ts e s₁) (hs : S s) : (∀ t ∈ ts, P t) ∧ S s₁ := by
  induction h with
  | stop hp => exact ⟨by simp, hS.stop hs hp⟩
  | token hp _ ih =>
      obtain ⟨ht, h₁⟩ := hS.token hs hp
      obtain ⟨hts, h₂⟩ := ih h₁
      exact ⟨List.forall_mem_cons.2 ⟨ht, hts⟩, h₂⟩

end CPreprocessor

import CPreprocessor.Proofs.Macro.Evaluation
import CPreprocessor.Proofs.Macro.IndexedSubstitution
import CPreprocessor.Proofs.Macro.Scan

/-!
The macro names that survive expansion. With object-like macros and no joining operator a
replacement holds the tokens of the body and nothing else, so from scan to scan the macros of the
context lead to every macro name in the input by references from body to body. A name that is
handed out stands in the context of its scan: it leads to itself. Where no macro leads to itself,
no macro name is left.
-/

namespace CPreprocessor

/-- The body of the macro `a` has the name of the macro `b` in it. -/
def Table.Refers (T : Table) (a b : Text) : Prop :=
  ∃ m, T.lookup a = some m ∧ T.isDefined b = true ∧ ∃ t ∈ m.body, t.isIdent b = true

namespace Substitution

namespace Draft

theorem solid_add (d : Draft) (t : Token) :
    Token.solid (d.add t).done.reverse = Token.solid (d.done.reverse ++ [t]) := by
  rw [Token.solid_append, add]
  cases ht : t.isSpace with
  | true => simp [Token.solid, ht]
  | false =>
      simp only [Bool.false_eq_true, if_false, List.cons_append, List.reverse_cons,
        List.reverse_append, Token.solid_append, List.append_assoc]
      -- The space in front of the token is no solid one, whether there is one or not.
      split <;> simp [Token.solid, Token.space, Token.isSpace]

theorem solid_foldl_add (d : Draft) (ts : List Token) :
    Token.solid (ts.foldl add d).done.reverse = Token.solid (d.done.reverse ++ ts) := by
  induction ts generalizing d with
  | nil => simp
  | cons t ts ih =>
      rw [List.foldl_cons, ih, Token.solid_append, solid_add, ← Token.solid_append,
        List.append_assoc, List.singleton_append]

end Draft

/-- Without joining operators the tokens of the elements come one after the other. -/
theorem solid_of_assemble {d d' : Draft} {els : List Element} (hels : .paste ∉ els)
    (h : assemble d els = .ok d') :
    Token.solid d'.done.reverse = Token.solid (d.done.reverse ++ els.flatMap Element.toTokens) := by
  induction els generalizing d with
  | nil =>
      cases h
      simp
  | cons el els ih =>
      cases el with
      | paste => exact absurd List.mem_cons_self hels
      | tokens space ts =>
          have hrest := ih (fun hel => hels (List.mem_cons_of_mem _ hel)) h
          rw [hrest, Token.solid_append, Draft.addAll, Draft.solid_foldl_add,
            ← Token.solid_append, List.append_assoc, List.flatMap_cons]
          rfl

/-- An object-like body without joining operators is taken token by token. -/
theorem elements_object {m : Macro} (hf : m.functionLike = false) {body : List Token}
    (hbody : ∀ t ∈ body, t.isPaste = false) (space pasted : Bool) :
    .paste ∉ elements m [] space pasted body ∧
      (elements m [] space pasted body).flatMap Element.toTokens = Token.solid body := by
  induction body generalizing space pasted with
  | nil =>
      rw [elements]
      exact ⟨List.not_mem_nil, rfl⟩
  | cons t ts ih =>
      obtain ⟨hp, hts⟩ := List.forall_mem_cons.1 hbody
      cases ht : t.isSpace with
      | true =>
          rw [Indexed.elements_space ht, Token.solid_cons_space ht]
          exact ih hts true pasted
      | false =>
          have harg : argument? [] t = none := by
            rw [argument?]
            split <;> rfl
          have hnone : Substitution.stringized? m [] t ts = none :=
            Indexed.stringized?_of_not_hash (by simp [hf]) ts
          obtain ⟨hne, heq⟩ := ih hts false false
          rw [Indexed.elements_plain ht hp hnone, harg, Token.solid_cons ht, ← heq]
          refine ⟨?_, rfl⟩
          intro hel
          cases hel with
          | tail _ hel => exact hne hel

/-- The replacement of such a macro is its body, white space aside. -/
theorem solid_of_substitute {m : Macro} (hf : m.functionLike = false)
    (hbody : ∀ t ∈ m.body, t.isPaste = false) {ts : List Token}
    (h : substitute m [] = .ok ts) : Token.solid ts = Token.solid m.body := by
  obtain ⟨d, hd, hts⟩ := except_bind_eq_ok h
  cases hts
  rw [List.zip_nil_right] at hd
  obtain ⟨hne, heq⟩ := elements_object hf hbody false false
  rw [solid_of_assemble hne hd, heq]
  simp [Token.solid]

end Substitution

namespace Expansion

open Relation (ReflTransGen TransGen)

/-- What a step does to a list if all macros are object-like. -/
inductive ObjectStep (T : Table) (ctx : Context) : List Token → Step (List Token) → Prop where
  | stop {ts e rest} : ObjectStep T ctx ts (.stop e rest)
  /-- A macro name stands for itself only in its own replacement. -/
  | emit {t ts} : (t.kind = .identifier → T.isDefined t.text = true → t.text ∈ ctx) →
      ObjectStep T ctx (t :: ts) (.emit t [] ts)
  | call {t ts m} : t.kind = .identifier → T.lookup t.text = some m →
      ObjectStep T ctx (t :: ts) (.call m [] ts)

theorem objectStep {T : Table} (hT : ∀ m ∈ T.entries, m.functionLike = false) (depth : Nat)
    (ctx : Context) (ts : List Token) :
    ObjectStep T ctx ts (step (fun _ => T) false depth ctx ts) := by
  cases ts with
  | nil => exact .stop
  | cons t ts =>
      simp only [step, TokenStream.next, TokenList.next]
      split
      · rename_i hk
        exact .emit fun h => absurd h hk
      · rename_i hk
        split
        · exact .stop
        · rw [if_neg (by simp)]
          cases hm : T.lookup t.text with
          | none => exact .emit fun _ hd => by simp [Table.isDefined, hm] at hd
          | some m =>
              simp only
              split
              · rename_i hc
                exact .emit fun _ _ => by simpa using hc
              · split
                · exact .stop
                · rw [hT m (Table.mem_of_lookup hm)]
                  exact .call (Decidable.not_not.1 hk) hm

namespace Scan

variable {T : Table} {keep : Bool} {s s' : Scan}

theorem of_object_emit (hobject : ∀ m ∈ T.entries, m.functionLike = false) {t : Token}
    {op rest : List Token} (h : s.step T false = .emit t op rest) :
    op = [] ∧ s.input = t :: rest ∧
      (t.kind = .identifier → T.isDefined t.text = true → t.text ∈ s.context) := by
  have hstep : ObjectStep T s.context s.input (s.step T false) := objectStep hobject _ _ _
  rw [h] at hstep
  generalize s.input = input at hstep
  cases hstep with
  | emit hctx => exact ⟨rfl, rfl, hctx⟩

theorem of_object_call (hobject : ∀ m ∈ T.entries, m.functionLike = false) {m : Macro}
    {args : List (List Token)} {rest : List Token} (h : s.step T false = .call m args rest) :
    args = [] ∧ ∃ t, s.input = t :: rest ∧ t.kind = .identifier ∧
      T.lookup t.text = some m := by
  have hstep : ObjectStep T s.context s.input (s.step T false) := objectStep hobject _ _ _
  rw [h] at hstep
  generalize s.input = input at hstep
  cases hstep with
  | call ht hm => exact ⟨rfl, _, rfl, ht, hm⟩

/-- What an expansion hands out is handed out by a step in one of its scans. -/
theorem exists_emit {u : Token} (h : u ∈ (s.output T keep).tokens) :
    ∃ s' t op rest, ReflTransGen (Leads T keep) s s' ∧ s'.step T keep = .emit t op rest ∧
      u ∈ t :: op := by
  induction s using (wellFounded_leads T keep).induction with
  | _ s ih =>
  have hnext {s' : Scan} (hl : Leads T keep s s') (h : u ∈ (s'.output T keep).tokens) :
      ∃ s' t op rest, ReflTransGen (Leads T keep) s s' ∧ s'.step T keep = .emit t op rest ∧
        u ∈ t :: op := by
    obtain ⟨s'', t, op, rest, hr, hs, hu⟩ := ih s' hl h
    exact ⟨s'', t, op, rest, .head hl hr, hs, hu⟩
  cases hs : s.step T keep with
  | stop e rest =>
      rw [output, expandAt_of_stop hs] at h
      cases h
  | emit t op rest =>
      rw [output_of_emit hs] at h
      cases List.mem_append.1 h with
      | inl hu => exact ⟨s, t, op, rest, .refl, hs, hu⟩
      | inr hu => exact hnext (.onward hs) hu
  | call m args rest =>
      rw [output_of_call hs] at h
      cases hb : replacement T keep s.depth m args with
      | error e =>
          rw [hb] at h
          cases h
      | ok body =>
          simp only [hb] at h
          cases hx : (s.rescan m body).output T keep with
          | mk out error =>
          cases error with
          | some e =>
              rw [hx] at h
              exact hnext (.rescan hs hb) (by rw [hx]; exact h)
          | none =>
              rw [hx] at h
              cases List.mem_append.1 h with
              | inl hu => exact hnext (.rescan hs hb) (by rw [hx]; exact hu)
              | inr hu => exact hnext (.resume hs hb (by rw [hx])) hu

/-- The macros of the context lead to every macro that the input names. -/
def Traced (T : Table) (s : Scan) : Prop :=
  ∀ a ∈ s.context, ∀ t ∈ s.input, t.kind = .identifier → T.isDefined t.text = true →
    TransGen T.Refers a t.text

theorem traced_start (ts : List Token) : Traced T (start ts) :=
  fun _ ha => nomatch ha

theorem Traced.behind (h : Traced T s) {t : Token} {rest : List Token}
    (hs : s.input = t :: rest) : Traced T (s.behind rest) := by
  intro a ha u hu
  exact h a ha u (hs ▸ List.mem_cons_of_mem t hu)

/-- In the replacement of `m` the names are those of its body, and what leads to `m` leads to
them. -/
theorem Traced.rescan (h : Traced T s) {t : Token} {rest body : List Token} {m : Macro}
    (hs : s.input = t :: rest) (ht : t.kind = .identifier) (hm : T.lookup t.text = some m)
    (hbody : Token.solid body = Token.solid m.body) : Traced T (s.rescan m body) := by
  have hname : m.name = t.text := Table.name_of_lookup hm
  intro a ha u hu hk hd
  have hmem : u ∈ m.body := by
    have hsolid : u ∈ Token.solid body := List.mem_filter.2 ⟨hu, by simp [Token.isSpace, hk]⟩
    rw [hbody] at hsolid
    exact List.mem_of_mem_filter hsolid
  have hrefers : T.Refers m.name u.text :=
    ⟨m, by rw [hname, hm], hd, u, hmem, by simp [Token.isIdent, hk]⟩
  cases List.mem_append.1 ha with
  | inl ha =>
      have hlead : TransGen T.Refers a t.text :=
        h a ha t (hs ▸ List.mem_cons_self) ht (by simp [Table.isDefined, hm])
      exact (hname ▸ hlead).tail hrefers
  | inr ha =>
      rw [List.mem_singleton.1 ha]
      exact .single hrefers

theorem Traced.of_leads (hobject : ∀ m ∈ T.entries, m.functionLike = false)
    (hjoin : ∀ m ∈ T.entries, ∀ t ∈ m.body, t.isPaste = false) (h : Traced T s)
    (hl : Leads T false s s') : Traced T s' := by
  cases hl with
  | onward hs =>
      obtain ⟨-, hin, -⟩ := of_object_emit hobject hs
      exact h.behind hin
  | argument => exact fun a ha => nomatch ha
  | rescan hs hb =>
      obtain ⟨rfl, t, hin, ht, hm⟩ := of_object_call hobject hs
      have hmem := Table.mem_of_lookup hm
      exact h.rescan hin ht hm
        (Substitution.solid_of_substitute (hobject _ hmem) (hjoin _ hmem) hb)
  | resume hs =>
      obtain ⟨-, t, hin, -⟩ := of_object_call hobject hs
      exact h.behind hin

theorem Traced.of_reaches (hobject : ∀ m ∈ T.entries, m.functionLike = false)
    (hjoin : ∀ m ∈ T.entries, ∀ t ∈ m.body, t.isPaste = false) (h : Traced T s)
    (hr : ReflTransGen (Leads T false) s s') : Traced T s' := by
  induction hr with
  | refl => exact h
  | tail _ hl ih => exact ih.of_leads hobject hjoin hl

end Scan
end Expansion

open Relation (TransGen)

/-- With object-like macros whose bodies have no joining operator, a macro name that is left
after expansion is that of a macro whose body leads back to it. If there is no such macro, no
macro name is left. -/
theorem transGen_refers_of_mem_expand (T : Table)
    (hobject : ∀ m ∈ T.entries, m.functionLike = false)
    (hjoin : ∀ m ∈ T.entries, ∀ t ∈ m.body, t.isPaste = false) (ts : List Token) :
    (∀ t ∈ (expand T ts).tokens, t.kind = .identifier → T.isDefined t.text = true →
      TransGen T.Refers t.text t.text) ∧
    ((∀ name, ¬TransGen T.Refers name name) →
      ∀ t ∈ (expand T ts).tokens, t.kind = .identifier → T.isDefined t.text = false) := by
  have hleft :
      ∀ t ∈ (expand T ts).tokens, t.kind = .identifier → T.isDefined t.text = true →
      TransGen T.Refers t.text t.text := by
    intro t ht hk hd
    have hmem : t ∈ ((Expansion.Scan.start ts).output T false).tokens := ht
    obtain ⟨s, u, op, rest, hr, hs, hu⟩ := Expansion.Scan.exists_emit hmem
    have htraced := (Expansion.Scan.traced_start ts).of_reaches hobject hjoin hr
    obtain ⟨rfl, hin, hctx⟩ := Expansion.Scan.of_object_emit hobject hs
    cases List.mem_singleton.1 hu
    exact htraced t.text (hctx hk hd) t (hin ▸ List.mem_cons_self) hk hd
  refine ⟨hleft, ?_⟩
  intro hacyclic t ht hk
  apply Bool.eq_false_iff.2
  intro hd
  exact hacyclic t.text (hleft t ht hk hd)

namespace References.Sample

def word (s : String) : Token :=
  { kind := .identifier, text := ascii s }

def one : Token :=
  { kind := .number, text := ascii "1" }

/-- A macro outside a circle of two. -/
def circle : Table :=
  ⟨[{ name := ascii "d", body := [word "a", Token.space {}, word "a"] },
    { name := ascii "a", body := [word "b"] }, { name := ascii "b", body := [word "a"] }]⟩

/-- A macro that stands for another one twice. -/
def chain : Table :=
  ⟨[{ name := ascii "p", body := [word "q", word "q"] }, { name := ascii "q", body := [one] }]⟩

theorem eq_of_refers_chain {a b : Text} (h : chain.Refers a b) :
    a = ascii "p" ∧ b = ascii "q" := by
  obtain ⟨m, hm, -, t, ht, hb⟩ := h
  have hname := Table.name_of_lookup hm
  have hmem := Table.mem_of_lookup hm
  simp only [chain, List.mem_cons, List.not_mem_nil, or_false] at hmem
  rcases hmem with rfl | rfl
  · simp only [List.mem_cons, List.not_mem_nil, or_false, or_self] at ht
    subst ht
    simp only [word, Token.isIdent, BEq.rfl, Bool.true_and, beq_iff_eq] at hb
    exact ⟨hname.symm, hb.symm⟩
  · simp only [List.mem_cons, List.not_mem_nil, or_false] at ht
    subst ht
    cases hb

end References.Sample

open References.Sample in
theorem transGen_refers_of_mem_expand_circle :
    (expand circle [word "d"]).tokens = [word "a", Token.space {}, word "a"] ∧
      TransGen circle.Refers (ascii "a") (ascii "a") ∧
      (expand chain [word "p"]).tokens = [one, one] ∧
      ∀ t ∈ (expand chain [word "p", word "x"]).tokens, t.kind = .identifier →
        chain.isDefined t.text = false := by
  have hcircle : expand circle [word "d"] = ⟨[word "a", Token.space {}, word "a"], none⟩ :=
    Expansion.expandAt_of_within (n := 9) (by decide +kernel)
  have hchain : expand chain [word "p"] = ⟨[one, one], none⟩ :=
    Expansion.expandAt_of_within (n := 9) (by decide +kernel)
  have hback := (transGen_refers_of_mem_expand circle (by decide) (by decide) [word "d"]).1
    (word "a") (by rw [hcircle]; exact List.mem_cons_self) rfl (by decide)
  have hacyclic : ∀ name, ¬TransGen chain.Refers name name := by
    intro name hname
    have hfirst : name = ascii "p" := by
      obtain ⟨b, hb, -⟩ := TransGen.head'_iff.1 hname
      exact (eq_of_refers_chain hb).1
    have hlast : name = ascii "q" := by
      obtain ⟨b, -, hb⟩ := TransGen.tail'_iff.1 hname
      exact (eq_of_refers_chain hb).2
    exact absurd (hfirst.symm.trans hlast) (by decide)
  refine ⟨by rw [hcircle], hback, by rw [hchain], ?_⟩
  exact (transGen_refers_of_mem_expand chain (by decide) (by decide) _).2 hacyclic

end CPreprocessor

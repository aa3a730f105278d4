import CPreprocessor.Proofs.Directive.LineEnd

/-!
Directive lines that break off. Every directive reads its line to the end, so a line in which
an error comes before the line end is not executed, whatever the directive.
-/

namespace CPreprocessor

open Directive

namespace Line

/-- The line breaks off: an error comes before its end. -/
def Broken (l : Line) : Prop :=
  (∃ e, l.ending = .fault e) ∧ ∀ t ∈ l.tokens, t.isLineEnd = false

namespace Broken

variable {l l' : Line}

theorem of_token {t : Token} (h : l.Broken) (hn : TokenStream.next l = .token t l') :
    t.isLineEnd = false ∧ l'.Broken := by
  obtain ⟨ts, ending⟩ := l
  cases ts with
  | nil => cases hn
  | cons u ts =>
      cases hn
      exact ⟨h.2 t List.mem_cons_self, h.1, fun v hv => h.2 v (List.mem_cons_of_mem t hv)⟩

theorem of_stop {e : End} (h : l.Broken) (hn : TokenStream.next l = .stop e l') :
    ∃ f, e = .fault f := by
  obtain ⟨ts, ending⟩ := l
  cases ts with
  | nil =>
      cases hn
      exact h.1
  | cons u ts => cases hn

theorem of_takeSpace {ws : List Token} (h : l.Broken)
    (hs : TokenStream.takeSpace false l = (⟨ws, none⟩, l')) : l'.Broken := by
  fun_induction TokenStream.takeSpace false l generalizing ws with
  | case1 l t l₁ hn ht out l₂ hr ih =>
      obtain ⟨us, e⟩ := out
      cases hs
      exact ih (h.of_token hn).2 hr
  | case2 l t l₁ hn ht =>
      cases hs
      obtain ⟨ht, hb⟩ := h.of_token hn
      refine ⟨hb.1, ?_⟩
      intro u hu
      rcases List.mem_cons.1 hu with rfl | hu
      · exact ht
      · exact hb.2 u hu
  | case3 l e l₁ hn =>
      obtain ⟨f, rfl⟩ := h.of_stop hn
      cases hs

theorem of_takeName {id : Token} (h : l.Broken)
    (hs : TokenStream.takeName l = (.ok id, l')) : l'.Broken := by
  unfold TokenStream.takeName at hs
  split at hs
  · rename_i t l₁ hn
    split at hs
    · cases hs
      exact (h.of_token hn).2
    · cases hs
  · cases hs
  · cases hs

theorem takeLineEnd (h : l.Broken) : (TokenStream.takeLineEnd l).1.toOption = none := by
  fun_induction TokenStream.takeLineEnd l with
  | case1 l t l₁ hn ht => simp [(h.of_token hn).1] at ht
  | case2 l t l₁ hn ht hs ih => exact ih (h.of_token hn).2
  | case3 | case5 => rfl
  | case4 l l₁ hn =>
      obtain ⟨f, hf⟩ := h.of_stop hn
      cases hf

theorem split (h : l.Broken) : l.split.toOption = none := by
  obtain ⟨⟨e, he⟩, hnone⟩ := h
  have hf : l.tokens.find? Token.isLineEnd = none :=
    List.find?_eq_none.2 fun t ht => by simp [hnone t ht]
  simp only [Line.split, hf, he]
  rfl

theorem finish (h : l.Broken) : l.finish.toOption = none := by
  rw [Line.finish, toOption_map, h.split]
  rfl

theorem of_suffix {ts : List Token} (h : l.Broken) (hs : ts <:+ l.tokens) :
    Broken { l with tokens := ts } :=
  ⟨h.1, fun t ht => h.2 t (hs.subset ht)⟩

theorem of_readName {name : Token} (h : l.Broken) (hr : Definition.readName l = .ok (name, l')) :
    l'.Broken := by
  unfold Definition.readName at hr
  split at hr
  · cases hr
  · rename_i l₁ hs
    split at hr
    · cases hr
    · rename_i id l₂ hn
      split at hr
      · cases hr
      · cases hr
        exact (h.of_takeSpace hs).of_takeName hn

end Broken
end Line

theorem Definition.suffix_of_params {name : Token} {ending : End} {st : Expecting}
    {ts rest : List Token} {ps : List Text} (h : params name ending st ts = .ok (ps, rest)) :
    rest <:+ ts := by
  induction ts generalizing st ps with
  | nil =>
      rw [params.eq_def] at h
      cases ending <;> cases h
  | cons t ts ih =>
      rw [params.eq_def] at h
      simp only at h
      have hcons {us : List Token} (hs : us <:+ ts) : us <:+ t :: ts :=
        hs.trans (List.suffix_cons t ts)
      split at h
      · exact hcons (ih h)
      · split at h
        · cases h
        · cases st with
          | separator =>
              simp only at h
              split at h
              · cases h
                exact hcons (List.suffix_refl rest)
              · split at h
                · exact hcons (ih h)
                · cases h
          | afterEllipsis =>
              simp only at h
              split at h
              · cases h
                exact hcons (List.suffix_refl rest)
              · cases h
          | first | param =>
              simp only at h
              split at h
              · cases h
                exact hcons (List.suffix_refl rest)
              · split at h
                · exact hcons (ih h)
                · split at h
                  · split at h
                    · cases h
                    · obtain ⟨⟨qs, r⟩, hq, he⟩ := except_map_eq_ok h
                      cases he
                      exact hcons (ih hq)
                  · cases h

namespace Line.Broken

variable {l l' : Line}

theorem of_head {name : Token} {ps : Option (List Text)} (h : l.Broken)
    (hh : Definition.head name l = .ok (ps, l')) : l'.Broken := by
  unfold Definition.head at hh
  split at hh
  · split at hh
    · cases hh
      exact h
    · cases hh
  · rename_i t ts hts
    split at hh
    · obtain ⟨⟨qs, r⟩, hq, he⟩ := except_map_eq_ok hh
      cases he
      refine h.of_suffix ((Definition.suffix_of_params hq).trans ?_)
      rw [hts]
      exact List.suffix_cons t ts
    · split at hh
      · cases hh
        exact h
      · cases hh

theorem define (h : l.Broken) (T : Table) : (Definition.define T l).toOption = none := by
  cases hx : Definition.define T l with
  | error e => rfl
  | ok y =>
      obtain ⟨x, hr, -⟩ := except_bind_eq_ok hx
      obtain ⟨⟨name, l₁⟩, hn, hr⟩ := except_bind_eq_ok hr
      obtain ⟨⟨ps, l₂⟩, hh, hr⟩ := except_bind_eq_ok hr
      obtain ⟨z, hs, -⟩ := except_bind_eq_ok hr
      have hnone := ((h.of_readName hn).of_head hh).split
      rw [hs] at hnone
      cases hnone

theorem undef (h : l.Broken) (T : Table) : (Definition.undef T l).toOption = none := by
  cases hx : Definition.undef T l with
  | error e => rfl
  | ok y =>
      obtain ⟨⟨name, l₁⟩, hn, hr⟩ := except_bind_eq_ok hx
      obtain ⟨z, hs, -⟩ := except_bind_eq_ok hr
      have hnone := (h.of_readName hn).takeLineEnd
      rw [hs] at hnone
      cases hnone

theorem definedCheck (h : l.Broken) (name : Token) (st : State) :
    (st.definedCheck name l).toOption = none := by
  unfold State.definedCheck
  split
  · rfl
  · rename_i l₁ hs
    split
    · rfl
    · rename_i id l₂ hn
      rw [toOption_bind, ((h.of_takeSpace hs).of_takeName hn).takeLineEnd]
      rfl

theorem closingEnd (h : l.Broken) (st : State) : (st.closingEnd l).toOption = none := by
  unfold State.closingEnd
  split
  · exact h.takeLineEnd
  · exact h.finish

theorem openGroup (h : l.Broken) (name : Token) {check : Except Error (Bool × Option Token)}
    (hc : check.toOption = none) (st : State) :
    (st.openGroup name l check).2.toOption = none := by
  unfold State.openGroup
  split
  · cases check with
    | error e => rfl
    | ok x => cases hc
  · exact h.finish

theorem orKeep {x : Except Error (State × Option Token)} (hx : x.toOption = none) (st : State) :
    (st.orKeep x).2.toOption = none := by
  cases x with
  | error e => rfl
  | ok y => cases hx

theorem changeTable (h : l.Broken) {change : Except Error (Table × Option Token)}
    (hc : change.toOption = none) (st : State) : (st.changeTable l change).toOption = none := by
  unfold State.changeTable
  split
  · rw [toOption_map, hc]
    rfl
  · rw [toOption_map, h.finish]
    rfl

theorem run (h : l.Broken) (d : Directive) (name : Token) (st : State) :
    (st.run d name l).2.toOption = none := by
  have hbind {α β : Type} {x : Except Error α} (hx : x.toOption = none)
      (f : α → Except Error β) : (x >>= f).toOption = none := by
    rw [toOption_bind, hx]
    rfl
  cases d with
  | ifHolds => exact h.openGroup name (hbind h.split _) st
  | ifDefined => exact h.openGroup name (h.definedCheck name st) st
  | ifNotDefined =>
      refine h.openGroup name ?_ st
      rw [toOption_map, h.definedCheck name st]
      rfl
  | elseIf => exact orKeep (hbind h.split _) st
  | otherwise | endIf => exact orKeep (hbind (h.closingEnd st) _) st
  | define => exact orKeep (h.changeTable (h.define st.table) st) st
  | undef => exact orKeep (h.changeTable (h.undef st.table) st) st

/-- A line that breaks off is not executed. -/
theorem execute (h : l.Broken) (keep : Bool) (hash : Token) (st : State) :
    (execute keep hash l st).2.toOption = none := by
  have hsuffix := List.dropWhile_suffix (l := l.tokens) Token.isGap
  unfold Directive.execute
  split
  · obtain ⟨e, he⟩ := h.1
    rw [he]
    rfl
  · rename_i name rest hd
    rw [hd] at hsuffix
    have hname := h.2 name (hsuffix.subset List.mem_cons_self)
    have hrest := h.of_suffix ((List.suffix_cons name rest).trans hsuffix)
    rw [if_neg (by simp [hname])]
    split
    · unfold otherLine
      split
      · rfl
      · rename_i x hs
        have := hrest.split
        rw [hs] at this
        cases this
    · rename_i d hd
      have := hrest.run d name st
      split
      · rfl
      · rename_i hr
        rw [hr] at this
        cases this

end Line.Broken
end CPreprocessor

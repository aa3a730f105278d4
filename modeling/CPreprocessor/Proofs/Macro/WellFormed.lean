import CPreprocessor.Directive.Definition
import CPreprocessor.Proofs.Outcome

/-!
Well formed macros. What a definition line may state and what the rules for macros let pass
together make every macro of a table one whose parameters and operators can be relied on: a name
of its own, distinct parameters, a body that neither starts nor ends with white space or a
joining operator, and a parameter behind every `#` of a function-like macro.
-/

namespace CPreprocessor

namespace Macro

/-- A macro that obeys the rules. -/
structure WellFormed (m : Macro) : Prop where
  name_free : Vocabulary.isReserved m.name = false
  params_nodup : m.params.Nodup
  /-- Only the last parameter may be reserved, and it is then the variadic name. -/
  params_free {before after : List Text} {p : Text} : m.params = before ++ p :: after →
    Vocabulary.isReserved p = true → p = Vocabulary.variadicName ∧ after = []
  params_object : m.functionLike = false → m.params = []
  body_head {t : Token} : m.body.head? = some t → t.isSpace = false ∧ t.isPaste = false
  body_last {t : Token} : m.body.getLast? = some t → t.isSpace = false ∧ t.isPaste = false
  body_variadic {t : Token} : t ∈ m.body → t.isIdent Vocabulary.variadicName = true →
    m.isVariadic = true
  /-- Behind every `#`, white space aside, a parameter follows. -/
  body_hash {before after : List Token} {t : Token} : m.functionLike = true →
    m.body = before ++ t :: after → t.isHash = true →
      ∃ p rest, after.dropWhile Token.isSpace = p :: rest ∧ p.kind = .identifier ∧
        p.text ∈ m.params

theorem of_paramError_eq_none {pos : Pos} {seen ps : List Text}
    (h : paramError pos seen ps = none) :
    ps.Nodup ∧ (∀ p ∈ ps, p ∉ seen) ∧ ∀ before p after, ps = before ++ p :: after →
      Vocabulary.isReserved p = true → p = Vocabulary.variadicName ∧ after = [] := by
  induction ps generalizing seen with
  | nil => exact ⟨.nil, by simp, by simp⟩
  | cons p ps ih =>
      rw [paramError] at h
      split at h
      · cases h
      · rename_i hr
        split at h
        · cases h
        · rename_i hs
          obtain ⟨hnodup, hseen, hfree⟩ := ih h
          have hp : p ∉ seen := by simpa using hs
          refine ⟨List.nodup_cons.2 ⟨fun hmem => ?_, hnodup⟩, ?_, ?_⟩
          · exact hseen p hmem List.mem_cons_self
          · exact List.forall_mem_cons.2
              ⟨hp, fun q hq hq' => hseen q hq (List.mem_cons_of_mem p hq')⟩
          · intro before q after heq hq
            cases before with
            | nil =>
                cases heq
                simpa [hq] using hr
            | cons p' before =>
                cases heq
                exact hfree before q after rfl hq

theorem of_bodyError_eq_none {m : Macro} {ts : List Token} (h : m.bodyError ts = none)
    {before after : List Token} {t : Token} (hts : ts = before ++ t :: after) :
    (t.isIdent Vocabulary.variadicName = true → m.isVariadic = true) ∧
      (m.functionLike = true → t.isHash = true → startsWithParam m.params after = true) := by
  induction ts generalizing before with
  | nil => simp at hts
  | cons u ts ih =>
      rw [bodyError] at h
      split at h
      · cases h
      · rename_i hv
        split at h
        · cases h
        · rename_i hh
          cases before with
          | nil =>
              cases hts
              exact ⟨by simpa using hv, by simpa using hh⟩
          | cons u' before =>
              cases hts
              exact ih h rfl

theorem of_startsWithParam {params : List Text} {ts : List Token}
    (h : startsWithParam params ts = true) :
    ∃ p rest, ts.dropWhile Token.isSpace = p :: rest ∧ p.kind = .identifier ∧
      p.text ∈ params := by
  unfold startsWithParam at h
  split at h
  · rename_i p rest hd
    obtain ⟨hk, hp⟩ := Bool.and_eq_true_iff.1 h
    exact ⟨p, rest, hd, beq_iff_eq.1 hk, by simpa using hp⟩
  · cases h

/-- A macro with a trimmed body is well formed if no rule is violated. -/
theorem wellFormed_of_error?_eq_none {m : Macro}
    (h : { m with body := Token.trim m.body }.error? = none)
    (hobject : m.functionLike = false → m.params = []) :
    WellFormed { m with body := Token.trim m.body } := by
  unfold error? at h
  split at h
  · cases h
  · rename_i hname
    split at h
    · cases h
    · rename_i hparams
      obtain ⟨hnodup, -, hfree⟩ := of_paramError_eq_none hparams
      split at h
      · cases h
      · rename_i hpaste
        obtain ⟨hhead, hlast⟩ := Bool.or_eq_false_iff.1 (Bool.eq_false_iff.2 hpaste)
        exact {
          name_free := Bool.eq_false_iff.2 hname
          params_nodup := hnodup
          params_free := fun heq hr => hfree _ _ _ heq hr
          params_object := hobject
          body_head := fun ht => ⟨Token.head?_trim ht, by rw [ht] at hhead; exact hhead⟩
          body_last := fun ht => ⟨Token.getLast?_trim ht, by rw [ht] at hlast; exact hlast⟩
          body_variadic := fun ht hv => by
            obtain ⟨before, after, heq⟩ := List.append_of_mem ht
            exact (of_bodyError_eq_none h heq).1 hv
          body_hash := fun hf heq hh =>
            of_startsWithParam ((of_bodyError_eq_none h heq).2 hf hh) }

end Macro

namespace Table

/-- Every macro is well formed, and there is one for a name. -/
structure WellFormed (T : Table) : Prop where
  nodup : (T.entries.map Macro.name).Nodup
  macros {m : Macro} : m ∈ T.entries → m.WellFormed

namespace WellFormed

theorem empty : WellFormed {} :=
  ⟨List.nodup_nil, fun h => nomatch h⟩

variable {T T' : Table}

theorem undef (h : T.WellFormed) (name : Text) : (T.undef name).WellFormed where
  nodup := h.nodup.sublist (List.filter_sublist.map _)
  macros hm := h.macros (List.mem_filter.1 hm).1

theorem insert (h : T.WellFormed) {m : Macro} (hm : m.WellFormed) : (T.insert m).WellFormed where
  nodup := by
    refine List.nodup_cons.2 ⟨?_, (h.undef m.name).nodup⟩
    simp [Table.undef]
  macros hn := by
    rcases List.mem_cons.1 hn with rfl | hn
    · exact hm
    · exact (h.undef m.name).macros hn

theorem define (h : T.WellFormed) {m : Macro} (hobject : m.functionLike = false → m.params = [])
    (hd : T.define m = .ok T') : T'.WellFormed := by
  simp only [Table.define] at hd
  split at hd
  · cases hd
  · rename_i he
    cases hd
    exact h.insert (Macro.wellFormed_of_error?_eq_none he hobject)

end WellFormed
end Table

namespace Definition

variable {T T' : Table} {l : Line} {stop : Option Token}

theorem params_of_read {m : Macro} (h : read l = .ok (m, stop)) :
    m.functionLike = false → m.params = [] := by
  obtain ⟨⟨name, l₁⟩, -, h⟩ := except_bind_eq_ok h
  obtain ⟨⟨ps, l₂⟩, -, h⟩ := except_bind_eq_ok h
  obtain ⟨⟨body, stop'⟩, -, h⟩ := except_bind_eq_ok h
  cases h
  cases ps with
  | none => exact fun _ => rfl
  | some ps => exact fun hf => nomatch hf

/-- A definition line leaves a well formed table well formed. -/
theorem wellFormed_define (hT : T.WellFormed) (h : define T l = .ok (T', stop)) :
    T'.WellFormed := by
  obtain ⟨⟨m, stop'⟩, hr, h⟩ := except_bind_eq_ok h
  obtain ⟨U, hd, h⟩ := except_bind_eq_ok h
  cases h
  exact hT.define (params_of_read hr) hd

theorem wellFormed_undef (hT : T.WellFormed) (h : undef T l = .ok (T', stop)) :
    T'.WellFormed := by
  obtain ⟨⟨name, l₁⟩, -, h⟩ := except_bind_eq_ok h
  obtain ⟨stop', -, h⟩ := except_bind_eq_ok h
  cases h
  exact hT.undef name.text

end Definition
end CPreprocessor

import CPreprocessor.Proofs.Condition.Failure
import CPreprocessor.Proofs.Condition.Parsing
import CPreprocessor.Proofs.Macro.Follow

/-!
Conditions without places. A condition that can be evaluated has the same value wherever its
tokens stand, and one that cannot fails in the same way. An expression is compared through its
tree: the same rules of the grammar derive the tokens in their other places.
-/

namespace CPreprocessor

theorem Token.Alike.of_append {ts us vs : List Token} (h : Alike (ts ++ us) vs) :
    ∃ ts' us', vs = ts' ++ us' ∧ Alike ts ts' ∧ Alike us us' := by
  rw [Alike, List.map_append] at h
  obtain ⟨ts', us', rfl, hts, hus⟩ := List.map_eq_append_iff.1 h.symm
  exact ⟨ts', us', rfl, hts.symm, hus.symm⟩

theorem Constant.number_unplaced (t : Token) :
    (number t.unplaced).toOption = (number t).toOption := by
  cases hx : splitSuffix (t.text.filter (· != Byte.apostrophe)) with
  | mk digits suffix =>
      simp only [number, Token.text_unplaced, hx]
      cases baseAndDigits digits with
      | none => rfl
      | some y =>
          by_cases hs : (!suffixes.contains (suffix.map Byte.toLower)) = true
          · simp only [if_pos hs]
            rfl
          · simp only [if_neg hs]
            rcases Text.numeral y.1 wordCount y.2 with (_ | _) | n <;> rfl

theorem Constant.character_unplaced (t : Token) :
    (character t.unplaced).toOption = (character t).toOption := by
  cases hx : Charset.ofText t.text with
  | mk cs quoted =>
      simp only [character, Token.text_unplaced, hx]
      by_cases hb : (quoted.drop 1).dropLast = []
      · simp only [if_pos hb]
        rfl
      · simp only [if_neg hb]
        cases characters cs (quoted.drop 1).dropLast <;> rfl

namespace Expression

theorem nameOperand_unplaced (T : Table) (p q : Pos) (ts : List Token) :
    verdict (nameOperand T.unplaced p (ts.map Token.unplaced)) =
      (verdict (nameOperand T q ts)).map fun x => (x.1, x.2.map Token.unplaced) := by
  have hdrop := Token.dropWhile_unplaced Token.isSpace_unplaced
  simp only [nameOperand, hdrop]
  cases ts.dropWhile Token.isSpace with
  | nil => rfl
  | cons t rest =>
      simp only [List.map_cons, hdrop, Token.isPunct_unplaced, Token.kind_unplaced,
        Token.text_unplaced, Table.isDefined_unplaced]
      split
      · cases rest.dropWhile Token.isSpace with
        | nil => rfl
        | cons n rest =>
            simp only [List.map_cons, hdrop, Token.kind_unplaced, Token.text_unplaced]
            split
            · rfl
            · cases rest.dropWhile Token.isSpace with
              | nil => rfl
              | cons c rest =>
                  have hc := Token.isPunct_unplaced (ascii ")") c
                  simp only [List.map_cons]
                  cases hp : c.isPunct (ascii ")") with
                  | true =>
                      rw [if_pos (hc.trans hp), if_pos rfl]
                      rfl
                  | false =>
                      rw [if_neg (by simp [hp]), if_neg (by simp)]
                      rfl
      · split <;> rfl

/-- Trees with the same value in tables that are the same up to places. -/
def Tree.Agrees (e e' : Tree) : Prop :=
  ∀ T T' : Table, T.unplaced = T'.unplaced → ∀ live, e.run T live = e'.run T' live

/-- An operator stands at another place too. -/
theorem Stands.again {s : Text} {t u : Token} (h : Stands s t) (htu : t.unplaced = u.unplaced) :
    Stands s u := by
  cases h with
  | punctuator h => exact .punctuator (Token.isPunct_eq htu _ ▸ h)
  | word hw h => exact .word hw (Token.isIdent_eq htu _ ▸ h)

/-- Tokens in other places are derived by the same rules. -/
theorem Yields.alike {k : Rank} {e : Tree} {ts us : List Token} (h : Yields k e ts)
    (hus : Token.Alike ts us) : ∃ e', Yields k e' us ∧ e.Agrees e' := by
  induction h generalizing us with
  | last _ ih =>
      obtain ⟨e', he', ha⟩ := ih hus
      exact ⟨e', .last he', ha⟩
  | list _ hk _ ihl ihr =>
      obtain ⟨ts₁, us₁, rfl, h₁, h₂⟩ := hus.of_append
      obtain ⟨k', us₂, rfl, hk', h₂⟩ := h₂.of_cons
      obtain ⟨l', hl', hal⟩ := ihl h₁
      obtain ⟨r', hr', har⟩ := ihr h₂
      refine ⟨_, .list hl' (Token.isPunct_eq hk' _ ▸ hk) hr', ?_⟩
      intro T T' hT live
      simp only [Tree.run, hal T T' hT, har T T' hT]
  | single _ ih =>
      obtain ⟨e', he', ha⟩ := ih hus
      exact ⟨e', .single he', ha⟩
  | choice _ hq _ hk _ ihc iha ihb =>
      obtain ⟨ts₁, us₁, rfl, h₁, h₂⟩ := hus.of_append
      obtain ⟨q', us₂, rfl, hq', h₂⟩ := h₂.of_cons
      obtain ⟨ts₃, us₃, rfl, h₃, h₄⟩ := h₂.of_append
      obtain ⟨k', us₄, rfl, hk', h₄⟩ := h₄.of_cons
      obtain ⟨c', hc', hac⟩ := ihc h₁
      obtain ⟨a', ha', haa⟩ := iha h₃
      obtain ⟨b', hb', hab⟩ := ihb h₄
      refine ⟨_, .choice hc' (Token.isPunct_eq hq' _ ▸ hq) ha'
        (Token.isPunct_eq hk' _ ▸ hk) hb', ?_⟩
      intro T T' hT live
      simp only [Tree.run, hac T T' hT, haa T T' hT, hab T T' hT]
  | operand hn _ ih =>
      obtain ⟨e', he', ha⟩ := ih hus
      exact ⟨e', .operand hn he', ha⟩
  | operation ho _ hk _ ihl ihr =>
      obtain ⟨ts₁, us₁, rfl, h₁, h₂⟩ := hus.of_append
      obtain ⟨k', us₂, rfl, hk', h₂⟩ := h₂.of_cons
      obtain ⟨l', hl', hal⟩ := ihl h₁
      obtain ⟨r', hr', har⟩ := ihr h₂
      refine ⟨_, .operation ho hl' (hk.again hk') hr', ?_⟩
      intro T T' hT live
      simp only [Tree.run, hal T T' hT, har T T' hT]
  | tightest hn _ ih =>
      obtain ⟨e', he', ha⟩ := ih hus
      exact ⟨e', .tightest hn he', ha⟩
  | plain _ ih =>
      obtain ⟨e', he', ha⟩ := ih hus
      exact ⟨e', .plain he', ha⟩
  | applied ho hk _ ih =>
      obtain ⟨k', us₁, rfl, hk', h₁⟩ := hus.of_cons
      obtain ⟨e', he', ha⟩ := ih h₁
      refine ⟨_, .applied ho (hk.again hk') he', ?_⟩
      intro T T' hT live
      simp only [Tree.run, ha T T' hT]
  | number ht =>
      obtain ⟨t', us₁, rfl, ht', h₁⟩ := hus.of_cons
      obtain rfl := h₁.of_nil
      refine ⟨_, .number ((Token.kind_eq ht').symm.trans ht), ?_⟩
      intro T T' hT live
      exact Token.congr_unplaced ht' (f := fun t => (Constant.number t).toOption)
        Constant.number_unplaced
  | character ht =>
      obtain ⟨t', us₁, rfl, ht', h₁⟩ := hus.of_cons
      obtain rfl := h₁.of_nil
      refine ⟨_, .character ((Token.kind_eq ht').symm.trans ht), ?_⟩
      intro T T' hT live
      exact Token.congr_unplaced ht' (f := fun t => (Constant.character t).toOption)
        Constant.character_unplaced
  | name ht hw hd =>
      obtain ⟨t', us₁, rfl, ht', h₁⟩ := hus.of_cons
      obtain rfl := h₁.of_nil
      refine ⟨_, .name ((Token.kind_eq ht').symm.trans ht) (Token.text_eq ht' ▸ hw)
        (Token.text_eq ht' ▸ hd), ?_⟩
      intro T T' hT live
      simp only [Tree.run, Token.text_eq ht']
  | defined hd hn =>
      obtain ⟨d', us₁, rfl, hd', h₁⟩ := hus.of_cons
      obtain ⟨n', us₂, rfl, hn', h₂⟩ := h₁.of_cons
      obtain rfl := h₂.of_nil
      refine ⟨_, .defined (Token.isIdent_eq hd' _ ▸ hd) ((Token.kind_eq hn').symm.trans hn),
        ?_⟩
      intro T T' hT live
      simp only [Tree.run, Token.text_eq hn', ← Table.isDefined_unplaced _ T, hT,
        Table.isDefined_unplaced]
  | definedInside hd ho hn hc =>
      obtain ⟨d', us₁, rfl, hd', h₁⟩ := hus.of_cons
      obtain ⟨o', us₂, rfl, ho', h₂⟩ := h₁.of_cons
      obtain ⟨n', us₃, rfl, hn', h₃⟩ := h₂.of_cons
      obtain ⟨c', us₄, rfl, hc', h₄⟩ := h₃.of_cons
      obtain rfl := h₄.of_nil
      refine ⟨_, .definedInside (Token.isIdent_eq hd' _ ▸ hd) (Token.isPunct_eq ho' _ ▸ ho)
        ((Token.kind_eq hn').symm.trans hn) (Token.isPunct_eq hc' _ ▸ hc), ?_⟩
      intro T T' hT live
      simp only [Tree.run, Token.text_eq hn', ← Table.isDefined_unplaced _ T, hT,
        Table.isDefined_unplaced]
  | inside ho _ hc ih =>
      obtain ⟨o', us₁, rfl, ho', h₁⟩ := hus.of_cons
      obtain ⟨ts₂, us₂, rfl, h₂, h₃⟩ := h₁.of_append
      obtain ⟨c', us₃, rfl, hc', h₃⟩ := h₃.of_cons
      obtain rfl := h₃.of_nil
      obtain ⟨e', he', ha⟩ := ih h₂
      exact ⟨e', .inside (Token.isPunct_eq ho' _ ▸ ho) he' (Token.isPunct_eq hc' _ ▸ hc),
        ha⟩

theorem evaluate_alike {T T' : Table} (hT : T.unplaced = T'.unplaced) (p q : Pos)
    {ts us : List Token} (hs : ∀ t ∈ ts, t.isSpace = false) (hus : Token.Alike ts us)
    {v : Value} (h : evaluate ⟨T, p⟩ ts = .ok v) : evaluate ⟨T', q⟩ us = .ok v := by
  obtain ⟨e, he, hv⟩ := yields_of_evaluate hs h
  obtain ⟨e', he', ha⟩ := he.alike hus
  exact he'.evaluate ⟨T', q⟩ ((ha T T' hT true).symm.trans hv)

theorem verdict_evaluate_alike {T T' : Table} (hT : T.unplaced = T'.unplaced) (p q : Pos)
    {ts us : List Token} (hs : ∀ t ∈ ts, t.isSpace = false) (hus : Token.Alike ts us) :
    verdict (evaluate ⟨T, p⟩ ts) = verdict (evaluate ⟨T', q⟩ us) := by
  have hs' : ∀ u ∈ us, u.isSpace = false := by
    have hmap (vs : List Token) :
        vs.map Token.isSpace = (vs.map Token.unplaced).map Token.isSpace := by
      rw [List.map_map]
      rfl
    intro u hu
    have hmem := List.mem_map_of_mem (f := Token.isSpace) hu
    rw [hmap, ← show ts.map _ = us.map _ from hus, ← hmap] at hmem
    obtain ⟨t, ht, heq⟩ := List.mem_map.1 hmem
    exact heq.symm.trans (hs t ht)
  cases h : evaluate ⟨T, p⟩ ts with
  | ok v => rw [evaluate_alike hT p q hs hus h]
  | error e =>
      cases h' : evaluate ⟨T', q⟩ us with
      | ok v =>
          rw [evaluate_alike hT.symm q p hs' hus.symm h'] at h
          cases h
      | error e' =>
          rw [verdict_error, verdict_error, failsAs_evaluate _ _ e h, failsAs_evaluate _ _ e' h']

end Expression

namespace Condition

open Expression (nameOperand nameOperand_unplaced)

theorem verdict_replaceDefined (T : Table) (t : Token) (rest : List Token) :
    verdict (replaceDefined T (t :: rest)) =
      if t.isIdent Vocabulary.definedName then
        verdict (nameOperand T t.pos rest) >>= fun x =>
          (verdict (replaceDefined T x.2)).map (truth t.pos x.1 :: ·)
      else (verdict (replaceDefined T rest)).map (t :: ·) := by
  rw [replaceDefined]
  split
  · split
    · rename_i h
      rw [h]
      rfl
    · rename_i h
      rw [h, verdict_map]
      rfl
  · rw [verdict_map]

theorem replaceDefined_unplaced (T : Table) (ts : List Token) :
    verdict (replaceDefined T.unplaced (ts.map Token.unplaced)) =
      (verdict (replaceDefined T ts)).map (List.map Token.unplaced) := by
  induction hn : ts.length using Nat.strongRecOn generalizing ts with
  | ind n ih =>
      subst hn
      cases ts with
      | nil =>
          rw [List.map_nil, replaceDefined, replaceDefined]
          rfl
      | cons t rest =>
          rw [List.map_cons, verdict_replaceDefined, verdict_replaceDefined,
            Token.isIdent_unplaced, nameOperand_unplaced T _ t.pos]
          split
          · cases h : nameOperand T t.pos rest with
            | error e => rfl
            | ok x =>
                have hlt : x.2.length < (t :: rest).length :=
                  Nat.lt_succ_of_lt (Expression.length_lt_of_nameOperand h)
                have hrest := ih x.2.length hlt x.2 rfl
                change (verdict (replaceDefined T.unplaced (x.2.map Token.unplaced))).map _ =
                  ((verdict (replaceDefined T x.2)).map _).map _
                rw [hrest, except_map_map, except_map_map]
                rfl
          · rw [ih rest.length (Nat.lt_succ_self _) rest rfl, except_map_map, except_map_map]
            rfl

/-- A condition holds wherever it stands, or nowhere, or it cannot be evaluated anywhere. -/
theorem verdict_holds_alike {T T' : Table} (hT : T.unplaced = T'.unplaced) (p q : Pos)
    {ts us : List Token} (hus : Token.Alike ts us) :
    verdict (holds T p ts) = verdict (holds T' q us) := by
  suffices h : verdict (evaluate T p ts) = verdict (evaluate T' q us) by
    rw [holds, holds, verdict_map, verdict_map, h]
  have hresolved : (verdict (replaceDefined T ts)).map (List.map Token.unplaced) =
      (verdict (replaceDefined T' us)).map (List.map Token.unplaced) := by
    rw [← replaceDefined_unplaced, ← replaceDefined_unplaced, hT, hus]
  rw [evaluate, evaluate]
  rcases of_verdict_map_eq hresolved with ⟨vs, ws, hvs, hws, halike⟩ | ⟨e, e', he, he', hk⟩
  · rw [hvs, hws, except_ok_bind, except_ok_bind]
    have hout : (expandKeepingDefined T vs).Alike (expandKeepingDefined T' ws) :=
      Expansion.follow_expandAt hT true 0 [] vs ws halike
    generalize expandKeepingDefined T vs = out at hout
    obtain ⟨ts, e⟩ := out
    cases e with
    | some e =>
        obtain ⟨us, e', hout', -, hk⟩ := hout.of_error
        rw [hout']
        exact congrArg Except.error hk
    | none =>
        obtain ⟨us, hout', htu⟩ := hout.of_complete
        have hsolid : Token.Alike (Token.solid ts) (Token.solid us) :=
          htu.apply Token.solid_unplaced
        rw [hout']
        have hs : ∀ t ∈ Token.solid ts, t.isSpace = false := by
          intro t ht
          simpa using (List.mem_filter.1 ht).2
        have hlast : (Token.solid ts).getLast?.isSome = (Token.solid us).getLast?.isSome := by
          have := congrArg (fun l => l.getLast?.isSome) hsolid
          simpa only [List.getLast?_map, Option.isSome_map] using this
        simp only
        cases hl : (Token.solid ts).getLast? with
        | none =>
            rw [hl] at hlast
            rw [Option.isSome_eq_false_iff.1 hlast.symm |> Option.isNone_iff_eq_none.1]
            rfl
        | some last =>
            rw [hl] at hlast
            obtain ⟨last', hl'⟩ := Option.isSome_iff_exists.1 hlast.symm
            rw [hl']
            exact Expression.verdict_evaluate_alike hT last.pos last'.pos hs hsolid
  · rw [he, he']
    exact congrArg Except.error hk

theorem holds_unplaced (T : Table) (p q : Pos) (ts : List Token) :
    verdict (holds T.unplaced p (ts.map Token.unplaced)) = verdict (holds T q ts) := by
  refine verdict_holds_alike T.unplaced_unplaced p q ?_
  rw [Token.Alike, List.map_map]
  rfl

end Condition
end CPreprocessor

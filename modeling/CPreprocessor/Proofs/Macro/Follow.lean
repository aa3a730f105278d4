import CPreprocessor.Macro.ExpandedText
import CPreprocessor.Proofs.Macro.Placement
import CPreprocessor.Proofs.TokenStream.Follow

/-!
Expansion along streams that follow one another. A step on one stream is matched by a step on
the other, unless it reads to where only white space is left. Then it hands out that white
space, or a name that an opening parenthesis would have made an invocation.
-/

namespace CPreprocessor

open TokenStream (next unread Blank Follows)

variable {ρ ρ' : Type} [TokenStream ρ] [TokenStream ρ']

namespace Arguments

theorem collect_of_token {r s : ρ} {t : Token} (hn : next r = .token t s) (name : Token)
    (depth : Nat) : collect name depth r =
      if t.isPunct (ascii "(") then
        ((collect name (depth + 1) s).1.map (consFirst t), (collect name (depth + 1) s).2)
      else if t.isPunct (ascii ")") then
        if depth = 0 then (.ok [[]], s)
        else ((collect name (depth - 1) s).1.map (consFirst t), (collect name (depth - 1) s).2)
      else if t.isPunct (ascii ",") && depth = 0 then
        ((collect name depth s).1.map ([] :: ·), (collect name depth s).2)
      else ((collect name depth s).1.map (consFirst t), (collect name depth s).2) := by
  rw [collect]
  split <;> simp_all

theorem collect_of_stop {r s : ρ} {e : End} (hn : next r = .stop e s) (name : Token)
    (depth : Nat) : collect name depth r =
      (.error (e.error?.getD { fault := .unterminatedArguments name.text, pos := name.pos }),
        s) := by
  rw [collect]
  split
  · rename_i h
    rw [hn] at h
    cases h
    rfl
  · rename_i h
    rw [hn] at h
    cases h
    rfl
  · simp_all

/-- No arguments are closed by white space. -/
theorem collect_of_blank {r : ρ} (h : Blank r) (name : Token) (depth : Nat) :
    (collect name depth r).1.toOption = none := by
  fun_induction collect name depth r with
  | case1 | case2 => rfl
  | case3 _ r t s hn hp | case5 _ r t s hn _ hp | case6 _ r t s hn _ _ hp =>
      simp [Token.not_isPunct_of_isSpace (h.of_token hn).1] at hp
  | case4 r t s hn _ hp => simp [Token.not_isPunct_of_isSpace (h.of_token hn).1] at hp
  | case7 _ r t s hn _ _ _ args s' hc ih =>
      rw [hc] at ih
      rw [toOption_map, ih (h.of_token hn).2]
      rfl

/-- Argument lists with no places. -/
def unplacedLists (as : List (List Token)) : List (List Token) :=
  as.map (List.map Token.unplaced)

theorem consFirst_unplaced (t : Token) (as : List (List Token)) :
    unplacedLists (consFirst t as) = consFirst t.unplaced (unplacedLists as) := by
  cases as <;> rfl

/-- Outcomes with arguments that differ in places only. -/
def VerdictAlike (x x' : Except Error (List (List Token))) : Prop :=
  (verdict x).map unplacedLists = (verdict x').map unplacedLists

theorem VerdictAlike.map {x x' : Except Error (List (List Token))} (h : VerdictAlike x x')
    {f g : List (List Token) → List (List Token)}
    (hf : ∀ as bs, unplacedLists as = unplacedLists bs →
      unplacedLists (f as) = unplacedLists (g bs)) :
    VerdictAlike (x.map f) (x'.map g) := by
  rcases of_verdict_map_eq h with ⟨as, bs, rfl, rfl, hab⟩ | ⟨e, e', rfl, rfl, hk⟩
  · exact congrArg Except.ok (hf as bs hab)
  · exact congrArg Except.error hk

theorem VerdictAlike.consFirst {x x' : Except Error (List (List Token))} (h : VerdictAlike x x')
    {t u : Token} (htu : t.unplaced = u.unplaced) :
    VerdictAlike (x.map (consFirst t)) (x'.map (Arguments.consFirst u)) :=
  h.map fun as bs hab => by rw [consFirst_unplaced, consFirst_unplaced, htu, hab]

theorem follow_collect {cross : Prop} {R : ρ → ρ' → Prop} (hF : Follows cross R) {r s : ρ}
    {r' : ρ'} {name : Token} (name' : Token) {depth : Nat}
    {x : Except Error (List (List Token))} (h : R r r') (hc : collect name depth r = (x, s)) :
    (∃ x' s', collect name' depth r' = (x', s') ∧ VerdictAlike x x' ∧ R s s') ∨
      (cross ∧ x.toOption = none) := by
  fun_induction collect name depth r generalizing r' x with
  | case1 depth r r₁ hn =>
      cases hc
      rcases hF.stop h hn with ⟨-, e', s', hn', he, hR⟩ | ⟨-, he⟩
      · cases he.of_eof
        exact .inl ⟨_, s', collect_of_stop hn' name' depth, rfl, hR⟩
      · exact absurd rfl he
  | case2 depth r e r₁ hn =>
      cases hc
      rcases hF.stop h hn with ⟨-, e', s', hn', he, hR⟩ | ⟨hcross, -⟩
      · obtain ⟨f, rfl, hk⟩ := he.of_fault
        exact .inl ⟨_, s', collect_of_stop hn' name' depth, congrArg Except.error hk, hR⟩
      · exact .inr ⟨hcross, rfl⟩
  | case3 depth r t r₁ hn hp as r₂ hr ih =>
      cases hc
      obtain ⟨u, r₁', hn', htu, h₁⟩ := hF.punct h hn hp
      rcases ih h₁ hr with ⟨bs, s', hs', hbs, hR⟩ | ⟨hcross, hx⟩
      · refine .inl ⟨bs.map (consFirst u), s', ?_, hbs.consFirst htu, hR⟩
        rw [collect_of_token hn', ← Token.isPunct_eq htu, if_pos hp, hs']
      · exact .inr ⟨hcross, toOption_map_eq_none hx _⟩
  | case4 r t r₁ hn hp hq =>
      cases hc
      obtain ⟨u, r₁', hn', htu, h₁⟩ := hF.punct h hn hq
      refine .inl ⟨.ok [[]], r₁', ?_, rfl, h₁⟩
      rw [collect_of_token hn', ← Token.isPunct_eq htu, if_neg hp, ← Token.isPunct_eq htu,
        if_pos hq, if_pos rfl]
  | case5 depth r t r₁ hn hp hq hd as r₂ hr ih =>
      cases hc
      obtain ⟨u, r₁', hn', htu, h₁⟩ := hF.punct h hn hq
      rcases ih h₁ hr with ⟨bs, s', hs', hbs, hR⟩ | ⟨hcross, hx⟩
      · refine .inl ⟨bs.map (consFirst u), s', ?_, hbs.consFirst htu, hR⟩
        rw [collect_of_token hn', ← Token.isPunct_eq htu, if_neg hp, ← Token.isPunct_eq htu,
          if_pos hq, if_neg hd, hs']
      · exact .inr ⟨hcross, toOption_map_eq_none hx _⟩
  | case6 depth r t r₁ hn hp hq hcomma as r₂ hr ih =>
      cases hc
      obtain ⟨u, r₁', hn', htu, h₁⟩ := hF.punct h hn (Bool.and_eq_true_iff.1 hcomma).1
      rcases ih h₁ hr with ⟨bs, s', hs', hbs, hR⟩ | ⟨hcross, hx⟩
      · refine .inl ⟨bs.map ([] :: ·), s', ?_, hbs.map fun _ _ hab => congrArg ([] :: ·) hab,
          hR⟩
        rw [collect_of_token hn', ← Token.isPunct_eq htu, if_neg hp,
          ← Token.isPunct_eq htu, if_neg hq, ← Token.isPunct_eq htu, if_pos hcomma, hs']
      · exact .inr ⟨hcross, toOption_map_eq_none hx _⟩
  | case7 depth r t r₁ hn hp hq hcomma as r₂ hr ih =>
      cases hc
      rcases hF.token h hn with ⟨u, r₁', hn', htu, h₁⟩ | ⟨hcross, -, hb⟩
      · rcases ih h₁ hr with ⟨bs, s', hs', hbs, hR⟩ | ⟨hcross, hx⟩
        · refine .inl ⟨bs.map (consFirst u), s', ?_, hbs.consFirst htu, hR⟩
          rw [collect_of_token hn', ← Token.isPunct_eq htu, if_neg hp,
            ← Token.isPunct_eq htu, if_neg hq, ← Token.isPunct_eq htu, if_neg hcomma, hs']
        · exact .inr ⟨hcross, toOption_map_eq_none hx _⟩
      · have hx := collect_of_blank hb name depth
        rw [hr] at hx
        exact .inr ⟨hcross, toOption_map_eq_none hx _⟩

end Arguments

namespace Expansion

/-- Steps with the same result, up to places. Under `cross` an error is not compared. -/
inductive Step.Matches (cross : Prop) (R : ρ → ρ' → Prop) :
    Step ρ → Step ρ' → Prop where
  | fault {e s st} : cross → Matches cross R (.stop (.fault e) s) st
  | stop {e e' s s'} : ¬cross → e.Akin e' → R s s' →
      Matches cross R (.stop e s) (.stop e' s')
  | emit {t t' op op' s s'} : t.unplaced = t'.unplaced → Token.Alike op op' → R s s' →
      Matches cross R (.emit t op s) (.emit t' op' s')
  | call {m m' args args' s s'} : m.unplaced = m'.unplaced →
      Arguments.unplacedLists args = Arguments.unplacedLists args' → R s s' →
      Matches cross R (.call m args s) (.call m' args' s')

omit [TokenStream ρ] [TokenStream ρ'] in
/-- Errors of one kind in matching states, if they are compared. -/
theorem Step.Matches.of_kind {cross : Prop} {R : ρ → ρ' → Prop} {e e' : Error}
    {s : ρ} {s' : ρ'} (hk : e.kind = e'.kind) (hR : R s s') :
    Matches cross R (.stop (.fault e) s) (.stop (.fault e') s') := by
  by_cases hc : cross
  · exact .fault hc
  · exact .stop hc (.fault hk) hR

section Inversion

variable {cross : Prop} {R : ρ → ρ' → Prop} {s : ρ} {st : Step ρ'}

omit [TokenStream ρ] [TokenStream ρ'] in
/-- Where one step ends, the other one does, unless an error is not compared. -/
theorem Step.Matches.of_stop {e : End} (h : Matches cross R (.stop e s) st) :
    (cross ∧ ∃ f, e = .fault f) ∨
      (¬cross ∧ ∃ e' s', st = .stop e' s' ∧ e.Akin e' ∧ R s s') := by
  cases h with
  | fault hc => exact .inl ⟨hc, _, rfl⟩
  | stop hc he hR => exact .inr ⟨hc, _, _, rfl, he, hR⟩

omit [TokenStream ρ] [TokenStream ρ'] in
theorem Step.Matches.of_emit {t : Token} {op : List Token} (h : Matches cross R (.emit t op s) st) :
    ∃ t' op' s', st = .emit t' op' s' ∧ t.unplaced = t'.unplaced ∧ Token.Alike op op' ∧
      R s s' := by
  cases h with
  | emit ht hop hR => exact ⟨_, _, _, rfl, ht, hop, hR⟩

omit [TokenStream ρ] [TokenStream ρ'] in
theorem Step.Matches.of_call {m : Macro} {args : List (List Token)}
    (h : Matches cross R (.call m args s) st) :
    ∃ m' args' s', st = .call m' args' s' ∧ m.unplaced = m'.unplaced ∧
      Arguments.unplacedLists args = Arguments.unplacedLists args' ∧ R s s' := by
  cases h with
  | call hm hargs hR => exact ⟨_, _, _, rfl, hm, hargs, hR⟩

end Inversion

/-- The step reads to where only white space is left. -/
def Step.Crosses : Step ρ → Prop
  | .emit t _ s => Blank s ∧ (t.isSpace = true ∨ t.kind = .identifier)
  | .stop _ _ | .call _ _ _ => False

variable {cross : Prop} {R : ρ → ρ' → Prop} {r : ρ} {r' : ρ'}

theorem follow_assign {m m' : Macro} {t t' : Token} {raw raw' : List (List Token)}
    (hm : m.unplaced = m'.unplaced) (ht : t.unplaced = t'.unplaced)
    (hraw : Arguments.unplacedLists raw = Arguments.unplacedLists raw') :
    Arguments.VerdictAlike (Arguments.assign m t (raw.map Token.trim))
      (Arguments.assign m' t' (raw'.map Token.trim)) := by
  have htrim (as : List (List Token)) : (as.map Token.trim).map (List.map Token.unplaced) =
      (Arguments.unplacedLists as).map Token.trim := by
    rw [Arguments.unplacedLists, List.map_map, List.map_map]
    exact List.map_congr_left fun a _ => (Token.trim_unplaced a).symm
  have h₁ := Arguments.assign_unplaced m t (raw.map Token.trim)
  have h₂ := Arguments.assign_unplaced m' t' (raw'.map Token.trim)
  rw [htrim, hm, ht, hraw] at h₁
  rw [htrim, h₁] at h₂
  exact h₂

/-- Behind the opening parenthesis the arguments are the same. -/
theorem follow_arguments (hF : Follows cross R) {m m' : Macro} {t t' : Token} (h : R r r')
    (hm : m.unplaced = m'.unplaced) (ht : t.unplaced = t'.unplaced) :
    Step.Matches cross R
        (match Arguments.collect t 0 r with
          | (.error e, r) => .stop (.fault e) r
          | (.ok raw, r) =>
            match Arguments.assign m t (raw.map Token.trim) with
            | .error e => .stop (.fault e) r
            | .ok args => .call m args r)
        (match Arguments.collect t' 0 r' with
          | (.error e, r) => .stop (.fault e) r
          | (.ok raw, r) =>
            match Arguments.assign m' t' (raw.map Token.trim) with
            | .error e => .stop (.fault e) r
            | .ok args => .call m' args r) := by
  cases hc : Arguments.collect t 0 r with
  | mk x s =>
  rcases Arguments.follow_collect hF t' h hc with ⟨x', s', hc', hx, hR⟩ | ⟨hcross, hx⟩
  · rw [hc']
    rcases of_verdict_map_eq hx with ⟨raw, raw', rfl, rfl, hraw⟩ | ⟨e, e', rfl, rfl, hk⟩
    · simp only
      rcases of_verdict_map_eq (follow_assign hm ht hraw) with
        ⟨args, args', ha, ha', hargs⟩ | ⟨e, e', ha, ha', hk⟩
      · rw [ha, ha']
        exact .call hm hargs hR
      · rw [ha, ha']
        exact .of_kind hk hR
    · exact .of_kind hk hR
  · cases x with
    | error e => exact .fault hcross
    | ok raw => cases hx

theorem follow_invocation (hF : Follows cross R) {m m' : Macro} {t t' : Token} (h : R r r')
    (hm : m.unplaced = m'.unplaced) (ht : t.unplaced = t'.unplaced) (hk : t.kind = .identifier) :
    Step.Matches cross R (invocation m t r) (invocation m' t' r') ∨
      (cross ∧ Step.Crosses (invocation m t r)) := by
  unfold invocation
  cases hws : TokenStream.takeSpace true r with
  | mk out r₁ =>
  obtain ⟨ws, e⟩ := out
  have hsp : ∀ w ∈ ws, w.isSpace = true := by
    have := TokenStream.isSpace_of_takeSpace true r
    rwa [hws] at this
  cases hp : TokenStream.takePunct (ascii "(") r₁ with
  | mk o r₂ =>
  rcases hF.takeSpace h hws with ⟨out', r₁', hus, halike, h₁⟩ | ⟨hc, hb⟩
  · rw [hus]
    cases e with
    | some e =>
        obtain ⟨us, e', rfl, -, hkind⟩ := halike.of_error
        exact .inl (.of_kind hkind h₁)
    | none =>
        obtain ⟨us, rfl, hblank⟩ := halike.of_complete
        simp only [hp]
        rcases hF.takePunct h₁ hp with ⟨o', r₂', hp', ho, h₂⟩ | ⟨hc, hnone⟩
        · rw [hp']
          rcases of_verdict_map_eq ho with ⟨p, p', rfl, rfl, hpp⟩ | ⟨e, e', rfl, rfl, hkind⟩
          · cases p with
            | none =>
                obtain rfl : p' = none := by simpa using hpp.symm
                exact .inl (.emit ht (.refl []) (hF.unread h₂ hblank))
            | some p =>
                obtain ⟨p', rfl⟩ := Option.isSome_iff_exists.1 hpp.symm
                exact .inl (follow_arguments hF h₂ hm ht)
          · exact .inl (.of_kind hkind h₂)
        · cases o with
          | error e => exact .inl (.fault hc)
          | ok p =>
              obtain ⟨rfl, hb⟩ := hnone p rfl
              exact .inr ⟨hc, hb.unread hsp, .inr hk⟩
  · cases e with
    | some e => exact .inl (.fault hc)
    | none =>
        simp only [hp]
        cases o with
        | error e => exact .inl (.fault hc)
        | ok p =>
            obtain ⟨rfl, hb⟩ := (hb rfl).takePunct hp
            exact .inr ⟨hc, hb.unread hsp, .inr hk⟩

theorem afterDefined_of_token {s : ρ} {t : Token} (hn : next r = .token t s) :
    afterDefined r =
      if t.kind = .identifier then (⟨[t], none⟩, s)
      else if t.isSpace || t.isPunct (ascii "(") then
        ((afterDefined s).1.prepend [t], (afterDefined s).2)
      else ({}, unread [t] s) := by
  rw [afterDefined]
  split <;> simp_all

theorem afterDefined_of_stop {s : ρ} {e : End} (hn : next r = .stop e s) :
    afterDefined r = (⟨[], e.error?⟩, s) := by
  rw [afterDefined]
  split <;> simp_all

theorem follow_afterDefined (hF : Follows cross R) (hcross : ¬cross) {s : ρ} {out : Output}
    (h : R r r') (ha : afterDefined r = (out, s)) :
    ∃ out' s', afterDefined r' = (out', s') ∧ out.Alike out' ∧ R s s' := by
  have hmatch {r s : ρ} {r' : ρ'} {t : Token} (h : R r r') (hn : next r = .token t s) :=
    (hF.token h hn).resolve_right fun hc => hcross hc.1
  have hcond {t u : Token} (htu : t.unplaced = u.unplaced) :=
    Token.congr_unplaced htu (f := fun t => t.isSpace || t.isPunct (ascii "(")) fun _ => rfl
  fun_induction afterDefined r generalizing r' out with
  | case1 r e r₁ hn =>
      cases ha
      obtain ⟨-, e', s', hn', he, hR⟩ := (hF.stop h hn).resolve_right fun hc => hcross hc.1
      exact ⟨_, s', afterDefined_of_stop hn', ⟨.refl [], he⟩, hR⟩
  | case2 r t r₁ hn hk =>
      cases ha
      obtain ⟨u, r₁', hn', htu, h₁⟩ := hmatch h hn
      refine ⟨⟨[u], none⟩, r₁', ?_, ⟨(Token.Alike.refl []).cons htu, rfl⟩, h₁⟩
      rw [afterDefined_of_token hn', ← Token.kind_eq htu, if_pos hk]
  | case3 r t r₁ hn hk ht out₁ r₂ hr ih =>
      cases ha
      obtain ⟨u, r₁', hn', htu, h₁⟩ := hmatch h hn
      obtain ⟨us, s', hs', hus, hR⟩ := ih h₁ hr
      refine ⟨us.prepend [u], s', ?_, ⟨hus.tokens.cons htu, hus.error⟩, hR⟩
      rw [afterDefined_of_token hn', ← Token.kind_eq htu, if_neg hk, ← hcond htu,
        if_pos ht, hs']
  | case4 r t r₁ hn hk ht =>
      cases ha
      obtain ⟨u, r₁', hn', htu, h₁⟩ := hmatch h hn
      refine ⟨{}, _, ?_, .refl {}, hF.unread h₁ ((Token.Alike.refl []).cons htu)⟩
      rw [afterDefined_of_token hn', ← Token.kind_eq htu, if_neg hk, ← hcond htu, if_neg ht]

theorem lookup_alike {T T' : Table} (h : T.unplaced = T'.unplaced) (n : Text) :
    (T.lookup n).map Macro.unplaced = (T'.lookup n).map Macro.unplaced := by
  rw [← Table.lookup_unplaced, h, Table.lookup_unplaced]

theorem follow_step (hF : Follows cross R) {table : ρ → Table} {table' : ρ' → Table}
    (htable : ∀ {s s'}, R s s' → (table s).unplaced = (table' s').unplaced) {keep : Bool}
    (hkeep : keep = true → ¬cross) (depth : Nat) (ctx : Context) (h : R r r') :
    Step.Matches cross R (step table keep depth ctx r) (step table' keep depth ctx r') ∨
      (cross ∧ Step.Crosses (step table keep depth ctx r)) := by
  unfold step
  split
  · rename_i e s hn
    rcases hF.stop h hn with ⟨hc, e', s', hn', he, hR⟩ | ⟨hc, he⟩
    · rw [hn']
      exact .inl (.stop hc he hR)
    · cases e with
      | eof => exact absurd rfl he
      | fault e => exact .inl (.fault hc)
  · rename_i t s hn
    rcases hF.token h hn with ⟨u, s', hn', htu, hR⟩ | ⟨hc, hsp, hb⟩
    · rw [hn']
      simp only [← Token.kind_eq htu, ← Token.text_eq htu]
      split
      · exact .inl (.emit htu (.refl []) hR)
      · rename_i hk
        split
        · exact .inl (.of_kind rfl hR)
        · split
          · rename_i hd
            cases hop : afterDefined s with
            | mk out s₁ =>
            obtain ⟨out', s₁', hop', halike, hR₁⟩ :=
              follow_afterDefined hF (hkeep hd.1) hR hop
            obtain ⟨op, e⟩ := out
            rw [hop']
            cases e with
            | some e =>
                obtain ⟨op', e', rfl, -, hkind⟩ := halike.of_error
                exact .inl (.of_kind hkind hR₁)
            | none =>
                obtain ⟨op', rfl, hop⟩ := halike.of_complete
                exact .inl (.emit htu hop hR₁)
          · have hl := lookup_alike (htable hR) t.text
            cases hm : (table s).lookup t.text with
            | none =>
                rw [hm] at hl
                rw [Option.map_eq_none_iff.1 hl.symm]
                exact .inl (.emit htu (.refl []) hR)
            | some m =>
                rw [hm] at hl
                obtain ⟨m', hm', heq⟩ := Option.map_eq_some_iff.1 hl.symm
                rw [hm']
                simp only [Macro.functionLike_eq heq]
                split
                · exact .inl (.emit htu (.refl []) hR)
                · split
                  · exact .inl (.of_kind rfl hR)
                  · split
                    · exact follow_invocation hF hR heq.symm htu (Decidable.not_not.1 hk)
                    · exact .inl (.call heq.symm rfl hR)
    · rw [if_pos (Token.kind_ne_identifier_of_isSpace hsp)]
      exact .inr ⟨hc, hb, .inl hsp⟩

/-- Lists follow one another if they differ in the places only. -/
theorem follows_alike : Follows False Token.Alike where
  token {r r' s t} h hn := by
    cases r with
    | nil => cases hn
    | cons u us =>
        cases hn
        obtain ⟨v, vs, rfl, hv, hvs⟩ := h.of_cons
        exact .inl ⟨v, vs, rfl, hv, hvs⟩
  stop {r r' s e} h hn := by
    cases r with
    | nil =>
        cases hn
        rw [h.of_nil]
        exact .inl ⟨id, .eof, [], rfl, .refl .eof, .refl []⟩
    | cons u us => cases hn
  unread h hts := hts.append h

theorem follow_expandArguments {f g : List Token → Output}
    (hfg : ∀ a b, Token.Alike a b → (f a).Alike (g b)) {raw raw' : List (List Token)}
    (hraw : Arguments.unplacedLists raw = Arguments.unplacedLists raw') :
    (verdict (expandArguments f raw)).map (List.map Argument.unplaced) =
      (verdict (expandArguments g raw')).map (List.map Argument.unplaced) := by
  induction raw generalizing raw' with
  | nil =>
      obtain rfl : raw' = [] := List.map_eq_nil_iff.1 hraw.symm
      rfl
  | cons a raw ih =>
      obtain ⟨b, bs, rfl, hb, hbs⟩ := List.map_eq_cons_iff.1 hraw.symm
      have hab := hfg a b hb.symm
      rw [expandArguments, expandArguments]
      generalize f a = out at hab
      obtain ⟨ts, e⟩ := out
      cases e with
      | some e =>
          obtain ⟨us, e', hg, -, hk⟩ := hab.of_error
          rw [hg]
          exact congrArg Except.error hk
      | none =>
          obtain ⟨us, hg, htu⟩ := hab.of_complete
          have hargs : Argument.unplaced ⟨a, ts⟩ = Argument.unplaced ⟨b, us⟩ := by
            rw [Argument.unplaced, Argument.unplaced, hb, show ts.map _ = us.map _ from htu]
          rw [hg]
          simp only [verdict_map, except_map_map]
          rcases of_verdict_map_eq (ih hbs.symm) with
            ⟨as, as', ha, ha', heq⟩ | ⟨e, e', ha, ha', hk⟩
          · rw [ha, ha']
            refine congrArg Except.ok ?_
            simp only [Function.comp, List.map_cons, hargs, heq]
          · rw [ha, ha']
            exact congrArg Except.error hk

theorem follow_substitute {m m' : Macro} {args args' : List Argument}
    (hm : m.unplaced = m'.unplaced)
    (hargs : args.map Argument.unplaced = args'.map Argument.unplaced) :
    (verdict (Substitution.substitute m args)).map (List.map Token.unplaced) =
      (verdict (Substitution.substitute m' args')).map (List.map Token.unplaced) := by
  rw [← Substitution.substitute_unplaced, hm, hargs, Substitution.substitute_unplaced]

/-- The steps of two expansions of lists match. -/
theorem matches_step {T T' : Table} (hT : T.unplaced = T'.unplaced) (keep : Bool) (depth : Nat)
    (ctx : Context) {ts ts' : List Token} (h : Token.Alike ts ts') :
    Step.Matches False Token.Alike (step (fun _ => T) keep depth ctx ts)
      (step (fun _ => T') keep depth ctx ts') :=
  (follow_step follows_alike (fun _ => hT) (fun _ => id) depth ctx h).resolve_right And.left

section Equations

variable {T : Table} {keep : Bool} {depth : Nat} {ctx : Context} {ts rest : List Token}

theorem expandAt_of_stop {e : End} (hs : step (fun _ => T) keep depth ctx ts = .stop e rest) :
    expandAt T keep depth ctx ts = ⟨[], e.error?⟩ := by
  rw [expandAt]
  split <;> simp_all

theorem expandAt_of_emit {t : Token} {op : List Token}
    (hs : step (fun _ => T) keep depth ctx ts = .emit t op rest) :
    expandAt T keep depth ctx ts = (expandAt T keep depth ctx rest).prepend (t :: op) := by
  rw [expandAt]
  split <;> simp_all

theorem expandAt_of_call {m : Macro} {args : List (List Token)}
    (hs : step (fun _ => T) keep depth ctx ts = .call m args rest) :
    expandAt T keep depth ctx ts =
      match replacement T keep depth m args with
      | .error e => ⟨[], some e⟩
      | .ok body =>
        match expandAt T keep (depth + 1) (ctx.extend m.name) body with
        | ⟨out, some e⟩ => ⟨out, some e⟩
        | ⟨out, none⟩ => (expandAt T keep depth ctx rest).prepend out := by
  rw [expandAt]
  split
  · simp_all
  · simp_all
  · rename_i m' args' rest' h'
    rw [hs] at h'
    cases h'
    rfl

end Equations

theorem follow_replacement {T T' : Table} (keep : Bool) {depth : Nat}
    (hx : ∀ a b, Token.Alike a b →
      (expandAt T keep (depth + 1) [] a).Alike (expandAt T' keep (depth + 1) [] b))
    {m m' : Macro} (hm : m.unplaced = m'.unplaced) {args args' : List (List Token)}
    (hargs : Arguments.unplacedLists args = Arguments.unplacedLists args') :
    (verdict (replacement T keep depth m args)).map (List.map Token.unplaced) =
      (verdict (replacement T' keep depth m' args')).map (List.map Token.unplaced) := by
  rw [replacement, replacement]
  rcases of_verdict_map_eq (follow_expandArguments hx hargs) with
    ⟨as, as', ha, ha', heq⟩ | ⟨e, e', ha, ha', hk⟩
  · rw [ha, ha']
    exact follow_substitute hm heq
  · rw [ha, ha']
    exact congrArg Except.error hk

theorem follow_expandAt {T T' : Table} (hT : T.unplaced = T'.unplaced) (keep : Bool)
    (depth : Nat) (ctx : Context) (ts ts' : List Token) (h : Token.Alike ts ts') :
    (expandAt T keep depth ctx ts).Alike (expandAt T' keep depth ctx ts') := by
  fun_induction expandAt T keep depth ctx ts generalizing ts' with
  | case1 depth ctx ts e s hs =>
      have hm := matches_step hT keep depth ctx h
      rw [hs] at hm
      obtain ⟨-, e', s', hs', he, -⟩ := hm.of_stop.resolve_left And.left
      rw [expandAt_of_stop hs']
      exact ⟨.refl [], he⟩
  | case2 depth ctx ts t op rest hs ih =>
      have hm := matches_step hT keep depth ctx h
      rw [hs] at hm
      obtain ⟨t', op', rest', hs', ht, hop, hR⟩ := hm.of_emit
      have hrest := ih _ hR
      rw [expandAt_of_emit hs']
      exact ⟨(hop.cons ht).append hrest.tokens, hrest.error⟩
  | case3 depth ctx ts m args rest hs _ e hb iha =>
      have hm := matches_step hT keep depth ctx h
      rw [hs] at hm
      obtain ⟨m', args', rest', hs', hmm, hargs, -⟩ := hm.of_call
      have hr := follow_replacement keep iha hmm hargs
      rw [show replacement T keep depth m args = .error e from hb] at hr
      obtain ⟨e', hb', hk⟩ := error_of_verdict_map_eq hr
      rw [expandAt_of_call hs', hb']
      exact ⟨.refl [], congrArg some hk⟩
  | case4 depth ctx ts m args rest hs _ body hb out e hx iha ihb =>
      have hm := matches_step hT keep depth ctx h
      rw [hs] at hm
      obtain ⟨m', args', rest', hs', hmm, hargs, -⟩ := hm.of_call
      have hr := follow_replacement keep iha hmm hargs
      rw [show replacement T keep depth m args = .ok body from hb] at hr
      obtain ⟨body', hb', hbody⟩ := ok_of_verdict_map_eq hr
      have hout := ihb body' hbody
      rw [hx, Macro.name_eq hmm] at hout
      obtain ⟨us, e', hx', hus, hk⟩ := hout.of_error
      rw [expandAt_of_call hs', hb']
      simp only [hx']
      exact ⟨hus, congrArg some hk⟩
  | case5 depth ctx ts m args rest hs _ body hb out hx iha ihb ihr =>
      have hm := matches_step hT keep depth ctx h
      rw [hs] at hm
      obtain ⟨m', args', rest', hs', hmm, hargs, hR⟩ := hm.of_call
      have hr := follow_replacement keep iha hmm hargs
      rw [show replacement T keep depth m args = .ok body from hb] at hr
      obtain ⟨body', hb', hbody⟩ := ok_of_verdict_map_eq hr
      have hout := ihb body' hbody
      rw [hx, Macro.name_eq hmm] at hout
      obtain ⟨us, hx', hus⟩ := hout.of_complete
      have hrest := ihr _ hR
      rw [expandAt_of_call hs', hb']
      simp only [hx']
      exact ⟨hus.append hrest.tokens, hrest.error⟩

end Expansion
end CPreprocessor

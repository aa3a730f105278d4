import CPreprocessor.Macro.Expansion
import CPreprocessor.Proofs.Token.Placement

/-!
The replacement of an invocation does not depend on places: arguments are assigned and bodies
are put together in the same way wherever the tokens stand.
-/

namespace CPreprocessor

open Token (unplaced)

namespace Arguments

theorem joined_unplaced (p : Pos) (as : List (List Token)) :
    joined {} (as.map (List.map unplaced)) = (joined p as).map unplaced := by
  match as with
  | [] => rfl
  | [a] => rfl
  | a :: b :: as =>
      have ih := joined_unplaced p (b :: as)
      simp only [List.map_cons] at ih
      simp only [List.map_cons, joined, List.map_append, ih]
      rfl

theorem assign_unplaced (m : Macro) (name : Token) (raw : List (List Token)) :
    verdict (assign m.unplaced name.unplaced (raw.map (List.map unplaced))) =
      (verdict (assign m name raw)).map (List.map (List.map unplaced)) := by
  have hraw : raw.map (List.map unplaced) = [[]] ↔ raw = [[]] := by
    simp [List.map_eq_cons_iff]
  simp only [assign, Macro.params_unplaced, Macro.isVariadic_unplaced, List.length_map, hraw]
  split
  · split <;> rfl
  · split
    · split
      · rfl
      · rw [← List.map_take, ← List.map_drop]
        change Except.ok (_ ++ [joined {} _]) = Except.ok (List.map _ (_ ++ [_]))
        rw [joined_unplaced name.pos, List.map_append]
        rfl
    · split
      · rfl
      · split <;> rfl

end Arguments

/-- The argument with no places. -/
def Argument.unplaced (a : Argument) : Argument :=
  ⟨a.written.map Token.unplaced, a.expanded.map Token.unplaced⟩

namespace Substitution

theorem stringBody_unplaced (space started : Bool) (ts : List Token) :
    stringBody space started (ts.map unplaced) = stringBody space started ts := by
  induction ts generalizing space started with
  | nil => rfl
  | cons t ts ih =>
      have he : escaped t.unplaced = escaped t := rfl
      simp only [List.map_cons, stringBody, Token.isSpace_unplaced, he, ih]

theorem stringOf_unplaced (p : Pos) (ts : List Token) :
    stringOf {} (ts.map unplaced) = (stringOf p ts).unplaced := by
  rw [stringOf, stringBody_unplaced]
  rfl

theorem paste_unplaced (l r : Token) :
    verdict (paste l.unplaced r.unplaced) = (verdict (paste l r)).map unplaced := by
  simp only [paste, Token.text_unplaced]
  split
  · split <;> rfl
  · rfl

/-- The bindings with no places. -/
def Bindings.unplaced (args : Bindings) : Bindings :=
  args.map fun b => (b.1, b.2.unplaced)

theorem lookup_unplaced (n : Text) (args : Bindings) :
    args.unplaced.lookup n = (args.lookup n).map Argument.unplaced := by
  induction args with
  | nil => rfl
  | cons b args ih =>
      rw [Bindings.unplaced, List.map_cons, List.lookup_cons, List.lookup_cons]
      split
      · rfl
      · exact ih

theorem argument?_unplaced (args : Bindings) (t : Token) :
    argument? args.unplaced t.unplaced = (argument? args t).map Argument.unplaced := by
  rw [argument?, argument?, Token.kind_unplaced, Token.text_unplaced, lookup_unplaced]
  split <;> rfl

/-- The element with no places. -/
def Element.unplaced : Element → Element
  | paste => paste
  | tokens space ts => tokens space (ts.map Token.unplaced)

theorem beforePaste_unplaced (ts : List Token) :
    beforePaste (ts.map unplaced) = beforePaste ts := by
  rw [beforePaste, Token.dropWhile_unplaced Token.isSpace_unplaced, beforePaste, List.head?_map,
    Option.any_map]
  rfl

theorem stringized?_unplaced (m : Macro) (args : Bindings) (t : Token) (ts : List Token) :
    stringized? m.unplaced args.unplaced t.unplaced (ts.map unplaced) =
      (stringized? m args t ts).map fun x => (x.1.unplaced, x.2.map unplaced) := by
  simp only [stringized?, Macro.functionLike_unplaced, Token.isHash_unplaced,
    Token.dropWhile_unplaced Token.isSpace_unplaced]
  split
  · cases ts.dropWhile Token.isSpace with
    | nil => rfl
    | cons p rest =>
        simp only [List.map_cons, argument?_unplaced]
        cases argument? args p <;> rfl
  · rfl

theorem elements_unplaced (m : Macro) (args : Bindings) (space pasted : Bool)
    (body : List Token) :
    elements m.unplaced args.unplaced space pasted (body.map unplaced) =
      (elements m args space pasted body).map Element.unplaced := by
  fun_induction elements m args space pasted body with
  | case1 space pasted =>
      rw [List.map_nil, elements]
      rfl
  | case2 space pasted t ts ht ih =>
      rw [List.map_cons, elements, Token.isSpace_unplaced, if_pos ht, ih]
  | case3 space pasted t ts ht hp ih =>
      rw [List.map_cons, elements, Token.isSpace_unplaced, if_neg ht, Token.isPaste_unplaced,
        if_pos hp, ih]
      rfl
  | case4 space pasted t ts ht hp a rest hs ih =>
      have hs' := stringized?_unplaced m args t ts
      rw [hs] at hs'
      have hstring : stringOf t.unplaced.pos a.unplaced.written =
          (stringOf t.pos a.written).unplaced :=
        stringOf_unplaced t.pos a.written
      rw [List.map_cons, elements, Token.isSpace_unplaced, if_neg ht, Token.isPaste_unplaced,
        if_neg hp]
      split
      · rename_i a' rest' h'
        rw [hs'] at h'
        cases h'
        rw [ih, hstring]
        rfl
      · rename_i h'
        rw [hs'] at h'
        cases h'
  | case5 space pasted t ts ht hp hs ts' ih =>
      have hs' := stringized?_unplaced m args t ts
      rw [hs] at hs'
      rw [List.map_cons, elements, Token.isSpace_unplaced, if_neg ht, Token.isPaste_unplaced,
        if_neg hp]
      split
      · rename_i h'
        rw [hs'] at h'
        cases h'
      · rw [ih, argument?_unplaced, beforePaste_unplaced, List.map_cons]
        simp only [ts']
        cases argument? args t with
        | none => rfl
        | some a =>
            simp only [Option.map_some]
            split <;> rfl

/-- The draft with no places. -/
def Draft.unplaced (d : Draft) : Draft :=
  { d with done := d.done.map Token.unplaced }

namespace Draft

theorem add_unplaced (d : Draft) (t : Token) :
    d.unplaced.add t.unplaced = (d.add t).unplaced := by
  have hdone : (d.unplaced.done != []) = (d.done != []) := by
    rw [unplaced]
    cases d.done <;> rfl
  simp only [add, Token.isSpace_unplaced, hdone]
  change (if t.isSpace = true then _ else
    (⟨_ :: (if (d.space && d.done != []) = true then _ else []) ++ _, _, _⟩ : Draft)) = _
  cases t.isSpace with
  | true => rfl
  | false => cases d.space && d.done != [] <;> rfl

theorem foldl_add_unplaced (d : Draft) (ts : List Token) :
    (ts.map Token.unplaced).foldl add d.unplaced = (ts.foldl add d).unplaced := by
  induction ts generalizing d with
  | nil => rfl
  | cons t ts ih => rw [List.map_cons, List.foldl_cons, add_unplaced, ih, List.foldl_cons]

theorem addAll_unplaced (d : Draft) (ts : List Token) :
    d.unplaced.addAll (ts.map Token.unplaced) = (d.addAll ts).unplaced :=
  foldl_add_unplaced { d with blank := true } ts

theorem join_unplaced (d : Draft) (ts : List Token) :
    verdict (d.unplaced.join (ts.map Token.unplaced)) = (verdict (d.join ts)).map unplaced := by
  unfold join
  change verdict (if d.blank = true then _ else _ : Except Error Draft) = _
  split
  · rw [addAll_unplaced]
    rfl
  · cases ts with
    | nil => rfl
    | cons t ts =>
        cases hd : d.done with
        | nil => simp [unplaced, hd, Except.map]
        | cons last done =>
            simp only [List.map_cons, unplaced, hd]
            rw [verdict_bind, verdict_bind, paste_unplaced]
            cases verdict (paste last t) with
            | error k => rfl
            | ok joined =>
                have hfold :=
                  foldl_add_unplaced { d with done := joined :: done, space := false } ts
                simp only [unplaced, List.map_cons] at hfold
                simp only [Except.map, except_ok_bind, verdict_ok, hfold]
                rfl

end Draft

theorem toTokens_unplaced (p : Element) : p.unplaced.toTokens = p.toTokens.map unplaced := by
  cases p <;> rfl

theorem assemble_unplaced (d : Draft) (ps : List Element) :
    verdict (assemble d.unplaced (ps.map Element.unplaced)) =
      (verdict (assemble d ps)).map Draft.unplaced := by
  fun_induction assemble d ps with
  | case1 d => rfl
  | case2 d space ts ps ih =>
      rw [List.map_cons, Element.unplaced, assemble]
      have hadd := Draft.addAll_unplaced { d with space := d.space || space } ts
      simp only [Draft.unplaced] at hadd
      rw [← ih, Draft.unplaced, hadd]
      rfl
  | case3 d => rfl
  | case4 d p ps ih =>
      rw [List.map_cons, List.map_cons, Element.unplaced, assemble, verdict_bind,
        toTokens_unplaced, Draft.join_unplaced, verdict_bind]
      cases h : verdict (d.join p.toTokens) with
      | error k => rfl
      | ok d' => exact ih d'

theorem substitute_unplaced (m : Macro) (args : List Argument) :
    verdict (substitute m.unplaced (args.map Argument.unplaced)) =
      (verdict (substitute m args)).map (List.map unplaced) := by
  have hargs : m.params.zip (args.map Argument.unplaced) =
      Bindings.unplaced (m.params.zip args) := by
    rw [Bindings.unplaced, List.zip_map_right]
    rfl
  have hassemble := assemble_unplaced {} (elements m (m.params.zip args) false false m.body)
  rw [← elements_unplaced] at hassemble
  rw [substitute, substitute, verdict_bind, verdict_bind, Macro.params_unplaced, hargs,
    Macro.body_unplaced]
  change (verdict (assemble (Draft.unplaced {}) _) >>= _) = _
  rw [hassemble]
  cases verdict (assemble {} (elements m (m.params.zip args) false false m.body)) with
  | error k => rfl
  | ok d => simp [Draft.unplaced, Except.map]

end Substitution
end CPreprocessor

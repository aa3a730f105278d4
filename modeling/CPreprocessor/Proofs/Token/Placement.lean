import CPreprocessor.Macro.Table
import CPreprocessor.Proofs.Outcome

/-!
Tokens, macros and tables without their places. Where a token stands in its source matters to
the messages about it and to nothing else, so everything that is made of tokens is compared up
to their places.
-/

namespace CPreprocessor

namespace Token

/-- The token with no place. -/
def unplaced (t : Token) : Token :=
  { t with pos := {} }

@[simp] theorem kind_unplaced (t : Token) : t.unplaced.kind = t.kind :=
  rfl

@[simp] theorem text_unplaced (t : Token) : t.unplaced.text = t.text :=
  rfl

@[simp] theorem isSpace_unplaced (t : Token) : t.unplaced.isSpace = t.isSpace :=
  rfl

@[simp] theorem isLineEnd_unplaced (t : Token) : t.unplaced.isLineEnd = t.isLineEnd :=
  rfl

@[simp] theorem isGap_unplaced (t : Token) : t.unplaced.isGap = t.isGap :=
  rfl

@[simp] theorem isPunct_unplaced (s : Text) (t : Token) : t.unplaced.isPunct s = t.isPunct s :=
  rfl

@[simp] theorem isIdent_unplaced (s : Text) (t : Token) : t.unplaced.isIdent s = t.isIdent s :=
  rfl

@[simp] theorem isHash_unplaced (t : Token) : t.unplaced.isHash = t.isHash :=
  rfl

@[simp] theorem isPaste_unplaced (t : Token) : t.unplaced.isPaste = t.isPaste :=
  rfl

@[simp] theorem unplaced_unplaced (t : Token) : t.unplaced.unplaced = t.unplaced :=
  rfl

/-- What ignores the place is the same of tokens that differ in nothing else. -/
theorem congr_unplaced {α : Type} {t u : Token} (h : t.unplaced = u.unplaced) {f : Token → α}
    (hf : ∀ t, f t.unplaced = f t) : f t = f u := by
  rw [← hf t, h, hf u]

section Equal

variable {t u : Token}

theorem kind_eq (h : t.unplaced = u.unplaced) : t.kind = u.kind :=
  congr_unplaced h kind_unplaced

theorem text_eq (h : t.unplaced = u.unplaced) : t.text = u.text :=
  congr_unplaced h text_unplaced

theorem isPunct_eq (h : t.unplaced = u.unplaced) (s : Text) : t.isPunct s = u.isPunct s :=
  congr_unplaced h (isPunct_unplaced s)

theorem isIdent_eq (h : t.unplaced = u.unplaced) (s : Text) : t.isIdent s = u.isIdent s :=
  congr_unplaced h (isIdent_unplaced s)

theorem isLineEnd_eq (h : t.unplaced = u.unplaced) : t.isLineEnd = u.isLineEnd :=
  congr_unplaced h isLineEnd_unplaced

theorem isHash_eq (h : t.unplaced = u.unplaced) : t.isHash = u.isHash :=
  congr_unplaced h isHash_unplaced

end Equal

theorem dropWhile_unplaced {q : Token → Bool} (hq : ∀ t, q t.unplaced = q t) (ts : List Token) :
    (ts.map unplaced).dropWhile q = (ts.dropWhile q).map unplaced := by
  induction ts with
  | nil => rfl
  | cons t ts ih =>
      rw [List.map_cons, List.dropWhile_cons, List.dropWhile_cons, hq]
      split
      · exact ih
      · rfl

theorem trim_unplaced (ts : List Token) : trim (ts.map unplaced) = (trim ts).map unplaced := by
  rw [trim, dropWhile_unplaced isSpace_unplaced, ← List.map_reverse,
    dropWhile_unplaced isSpace_unplaced, ← List.map_reverse, trim]

theorem solid_unplaced (ts : List Token) : solid (ts.map unplaced) = (solid ts).map unplaced := by
  rw [solid, List.filter_map]
  rfl

/-- Two token lists that differ in the places only. -/
def Alike (ts us : List Token) : Prop :=
  ts.map unplaced = us.map unplaced

namespace Alike

variable {t u : Token} {ts us vs ws : List Token}

theorem refl (ts : List Token) : Alike ts ts :=
  Eq.refl _

theorem cons (h : t.unplaced = u.unplaced) (hs : Alike ts us) : Alike (t :: ts) (u :: us) := by
  rw [Alike, List.map_cons, List.map_cons, h, hs]

theorem append (h : Alike ts us) (h' : Alike vs ws) : Alike (ts ++ vs) (us ++ ws) := by
  rw [Alike, List.map_append, List.map_append, h, h']

theorem of_cons (h : Alike (t :: ts) us) :
    ∃ v vs, us = v :: vs ∧ t.unplaced = v.unplaced ∧ Alike ts vs := by
  obtain ⟨v, vs, rfl, hv, hvs⟩ := List.map_eq_cons_iff.1 (Eq.symm h)
  exact ⟨v, vs, rfl, hv.symm, hvs.symm⟩

theorem of_nil (h : Alike [] us) : us = [] :=
  List.map_eq_nil_iff.1 (Eq.symm h)

/-- A list operation that keeps tokens as they are can be applied to both lists. -/
theorem apply (h : Alike ts us) {f : List Token → List Token}
    (hf : ∀ ts, f (ts.map unplaced) = (f ts).map unplaced) : Alike (f ts) (f us) := by
  rw [Alike, ← hf, ← hf, h]

end Alike
end Token

namespace Macro

/-- The macro with no places. -/
def unplaced (m : Macro) : Macro :=
  { m with body := m.body.map Token.unplaced, pos := {} }

@[simp] theorem name_unplaced (m : Macro) : m.unplaced.name = m.name :=
  rfl

@[simp] theorem functionLike_unplaced (m : Macro) : m.unplaced.functionLike = m.functionLike :=
  rfl

@[simp] theorem params_unplaced (m : Macro) : m.unplaced.params = m.params :=
  rfl

theorem name_eq {m m' : Macro} (h : m.unplaced = m'.unplaced) : m.name = m'.name := by
  rw [← name_unplaced, h, name_unplaced]

theorem functionLike_eq {m m' : Macro} (h : m.unplaced = m'.unplaced) :
    m.functionLike = m'.functionLike := by
  rw [← functionLike_unplaced, h, functionLike_unplaced]

@[simp] theorem body_unplaced (m : Macro) : m.unplaced.body = m.body.map Token.unplaced :=
  rfl

@[simp] theorem isVariadic_unplaced (m : Macro) : m.unplaced.isVariadic = m.isVariadic :=
  rfl

theorem kind_paramError (p q : Pos) (seen ps : List Text) :
    (paramError p seen ps).map Error.kind = (paramError q seen ps).map Error.kind := by
  induction ps generalizing seen with
  | nil => rfl
  | cons n ps ih =>
      simp only [paramError]
      split
      · rfl
      · split
        · rfl
        · exact ih (n :: seen)

theorem startsWithParam_unplaced (ps : List Text) (ts : List Token) :
    startsWithParam ps (ts.map Token.unplaced) = startsWithParam ps ts := by
  rw [startsWithParam, Token.dropWhile_unplaced Token.isSpace_unplaced, startsWithParam]
  cases ts.dropWhile Token.isSpace <;> rfl

theorem kind_bodyError (m : Macro) (ts : List Token) :
    (bodyError m.unplaced (ts.map Token.unplaced)).map Error.kind =
      (bodyError m ts).map Error.kind := by
  induction ts with
  | nil => rfl
  | cons t ts ih =>
      simp only [List.map_cons, bodyError, Token.isIdent_unplaced, Token.isHash_unplaced,
        isVariadic_unplaced, functionLike_unplaced, params_unplaced, startsWithParam_unplaced]
      split
      · rfl
      · split
        · rfl
        · exact ih

theorem pasteAtEnd_unplaced (m : Macro) : m.unplaced.pasteAtEnd = m.pasteAtEnd := by
  simp only [pasteAtEnd, body_unplaced, List.head?_map, List.getLast?_map, Option.any_map]
  rfl

theorem kind_error? (m : Macro) : m.unplaced.error?.map Error.kind = m.error?.map Error.kind := by
  have hp := kind_paramError m.unplaced.pos m.pos [] m.params
  simp only [error?, name_unplaced, params_unplaced, pasteAtEnd_unplaced, body_unplaced]
  split
  · rfl
  · cases h : paramError m.pos [] m.params with
    | some e =>
        rw [h] at hp
        obtain ⟨e', he', hk⟩ := Option.map_eq_some_iff.1 hp
        rw [he']
        exact congrArg some hk
    | none =>
        rw [h] at hp
        rw [Option.map_eq_none_iff.1 hp]
        simp only
        split
        · rfl
        · exact kind_bodyError m m.body

end Macro

namespace Table

/-- The table with no places. -/
def unplaced (T : Table) : Table :=
  ⟨T.entries.map Macro.unplaced⟩

@[simp] theorem unplaced_unplaced (T : Table) : T.unplaced.unplaced = T.unplaced := by
  simp only [unplaced, List.map_map]
  congr 2
  funext m
  simp only [Function.comp, Macro.unplaced, List.map_map]
  rfl

theorem lookup_unplaced (n : Text) (T : Table) :
    T.unplaced.lookup n = (T.lookup n).map Macro.unplaced :=
  List.find?_map

theorem isDefined_unplaced (n : Text) (T : Table) : T.unplaced.isDefined n = T.isDefined n := by
  rw [isDefined, lookup_unplaced, isDefined, Option.isSome_map]

theorem undef_unplaced (n : Text) (T : Table) : T.unplaced.undef n = (T.undef n).unplaced := by
  simp only [undef, unplaced, List.filter_map]
  rfl

theorem verdict_define (m : Macro) (T : Table) : verdict (T.define m) =
    match (Macro.error? { m with body := Token.trim m.body }).map Error.kind with
    | some k => .error k
    | none => .ok (T.insert { m with body := Token.trim m.body }) := by
  simp only [define]
  cases Macro.error? { m with body := Token.trim m.body } <;> rfl

theorem define_unplaced (m : Macro) (T : Table) :
    verdict (T.unplaced.define m.unplaced) = (verdict (T.define m)).map unplaced := by
  have hm : { m.unplaced with body := Token.trim m.unplaced.body } =
      Macro.unplaced { m with body := Token.trim m.body } := by
    simp only [Macro.unplaced, Token.trim_unplaced]
  rw [verdict_define, verdict_define, hm, Macro.kind_error?]
  split
  · rfl
  · rw [insert, Macro.name_unplaced, undef_unplaced]
    rfl

end Table
end CPreprocessor

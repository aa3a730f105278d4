import CPreprocessor.Proofs.Macro.Placemarker
import CPreprocessor.Proofs.Macro.Step
import CPreprocessor.Proofs.Macro.StringOperand
import Mathlib.Data.List.Chain

/-!
White space in replacements. Whatever the body and the arguments look like, a replacement has
white space only between other tokens, one space in each place, which stands where the token
behind it stands. Without operators in the body nothing else happens to the tokens: the
replacement is the body with the expanded arguments in the place of the parameters, and with its
white space reduced in this way.
-/

namespace CPreprocessor

namespace Token

/-- A run of tokens with a space in front, at the place of the first of them. -/
def behindSpace : List Token → List Token
  | [] => []
  | t :: ts => Token.space t.pos :: t :: ts

/-- The tokens with one space for all white space between two of them, at the place of the second,
and with none at the ends. -/
def respaced (ts : List Token) : List Token :=
  match runs ts with
  | [] => []
  | r :: rs => r ++ rs.flatMap behindSpace

end Token

namespace Substitution

/-- White space stands only between other tokens, and it is a single space at the place of the
token behind it. -/
structure WellSpaced (ts : List Token) : Prop where
  head {t : Token} : ts.head? = some t → t.isSpace = false
  last {t : Token} : ts.getLast? = some t → t.isSpace = false
  spaces : ts.IsChain fun t u => t.isSpace = true → u.isSpace = false ∧ t = Token.space u.pos

namespace WellSpaced

variable {ts : List Token} {t u : Token}

theorem nil : WellSpaced [] where
  head h := nomatch h
  last h := nomatch h
  spaces := .nil

theorem concat (h : WellSpaced ts) (ht : t.isSpace = false) : WellSpaced (ts ++ [t]) where
  head {x} hx := by
    cases ts with
    | nil =>
        cases hx
        exact ht
    | cons y ys => exact h.head hx
  last {x} hx := by
    rw [List.getLast?_concat] at hx
    cases hx
    exact ht
  spaces := by
    refine List.isChain_append.2 ⟨h.spaces, .singleton t, fun x hx y _ hs => ?_⟩
    rw [h.last hx] at hs
    cases hs

theorem concat_space (h : WellSpaced ts) (hts : ts ≠ []) (ht : t.isSpace = false) :
    WellSpaced (ts ++ [Token.space t.pos, t]) where
  head {x} hx := by
    rw [List.head?_append_of_ne_nil ts hts] at hx
    exact h.head hx
  last {x} hx := by
    rw [List.getLast?_append] at hx
    cases hx
    exact ht
  spaces := by
    refine List.isChain_append.2 ⟨h.spaces, List.isChain_pair.2 fun _ => ⟨ht, rfl⟩, ?_⟩
    intro x hx y _ hs
    rw [h.last hx] at hs
    cases hs

/-- The last token may give way to another one at its place. -/
theorem replace_last (h : WellSpaced (ts ++ [t])) (hu : u.isSpace = false) (hpos : u.pos = t.pos) :
    WellSpaced (ts ++ [u]) where
  head {x} hx := by
    cases ts with
    | nil =>
        cases hx
        exact hu
    | cons y ys => exact h.head hx
  last {x} hx := by
    rw [List.getLast?_concat] at hx
    cases hx
    exact hu
  spaces := by
    obtain ⟨hts, -, hlast⟩ := List.isChain_append.1 h.spaces
    refine List.isChain_append.2 ⟨hts, .singleton u, fun x hx y hy hs => ?_⟩
    cases hy
    rw [hpos]
    exact ⟨hu, (hlast x hx t rfl hs).2⟩

end WellSpaced

theorem pos_of_paste {l r t : Token} (h : paste l r = .ok t) : t.pos = l.pos := by
  unfold paste at h
  split at h
  · split at h
    · cases h
    · cases h
      rfl
  · cases h

namespace Draft

variable {d : Draft}

/-- A space that is due is made together with the token behind it. -/
theorem wellSpaced_add (h : WellSpaced d.done.reverse) (t : Token) :
    WellSpaced (d.add t).done.reverse := by
  unfold add
  split
  · exact h
  · rename_i ht
    have ht : t.isSpace = false := Bool.eq_false_iff.2 ht
    by_cases hgap : (d.space && d.done != []) = true
    · have hne : d.done.reverse ≠ [] := by
        rw [Ne, List.reverse_eq_nil_iff]
        exact bne_iff_ne.1 (Bool.and_eq_true_iff.1 hgap).2
      have hadd := h.concat_space hne ht
      simpa [hgap] using hadd
    · have hadd := h.concat ht
      simpa [hgap] using hadd

theorem wellSpaced_foldl_add (h : WellSpaced d.done.reverse) (ts : List Token) :
    WellSpaced (ts.foldl add d).done.reverse := by
  induction ts generalizing d with
  | nil => exact h
  | cons t ts ih => exact ih (wellSpaced_add h t)

theorem wellSpaced_addAll (h : WellSpaced d.done.reverse) (ts : List Token) :
    WellSpaced (d.addAll ts).done.reverse :=
  wellSpaced_foldl_add (d := { d with blank := true }) h ts

theorem wellSpaced_join (h : WellSpaced d.done.reverse) {ts : List Token} {d' : Draft}
    (hj : d.join ts = .ok d') : WellSpaced d'.done.reverse := by
  unfold join at hj
  split at hj
  · cases hj
    exact wellSpaced_addAll h ts
  · split at hj
    · rename_i t ts last done hd
      obtain ⟨joined, hpaste, hj⟩ := except_bind_eq_ok hj
      cases hj
      rw [hd, List.reverse_cons] at h
      have hjoined := h.replace_last (Placemarker.solid_of_paste hpaste) (pos_of_paste hpaste)
      rw [← List.reverse_cons] at hjoined
      exact wellSpaced_foldl_add hjoined ts
    · cases hj
      exact h

end Draft

theorem wellSpaced_assemble {d d' : Draft} (h : WellSpaced d.done.reverse) {els : List Element}
    (ha : assemble d els = .ok d') : WellSpaced d'.done.reverse := by
  fun_induction assemble d els with
  | case1 | case3 =>
      cases ha
      exact h
  | case2 d space ts els ih =>
      exact ih (Draft.wellSpaced_addAll (d := { d with space := d.space || space }) h ts) ha
  | case4 d el els ih =>
      obtain ⟨d₁, hj, ha⟩ := except_bind_eq_ok ha
      exact ih d₁ (Draft.wellSpaced_join h hj) ha

/-- Whatever the body and the arguments are, a replacement is well spaced. -/
theorem wellSpaced_substitute {m : Macro} {args : List Argument} {ts : List Token}
    (h : substitute m args = .ok ts) : WellSpaced ts := by
  obtain ⟨d, hd, h⟩ := except_bind_eq_ok h
  cases h
  exact wellSpaced_assemble (d := {}) .nil hd

namespace Draft

/-- What is added to a draft that is not empty, by the runs of it: with a space in front of every
run but the one that goes on. -/
theorem foldl_add_started {d : Draft} (hd : d.done ≠ []) {ts r : List Token}
    {rs : List (List Token)} (h : ts.splitOnP Token.isSpace = r :: rs) :
    (ts.foldl add { d with space := false }).done.reverse =
        d.done.reverse ++ (r ++ (rs.filter (!·.isEmpty)).flatMap Token.behindSpace) ∧
      (ts.foldl add { d with space := true }).done.reverse =
        d.done.reverse ++ ((r :: rs).filter (!·.isEmpty)).flatMap Token.behindSpace := by
  induction ts generalizing d r rs with
  | nil =>
      rw [List.splitOnP_nil] at h
      cases h
      simp
  | cons t ts ih =>
      obtain ⟨r', rs', hsplit⟩ :=
        List.exists_cons_of_ne_nil (List.splitOnP_ne_nil Token.isSpace ts)
      rw [List.splitOnP_cons_eq_if_modifyHead, hsplit] at h
      -- White space makes a space due, whether or not one is; a token takes up the one that is.
      by_cases hs : t.isSpace = true
      · rw [if_pos hs] at h
        cases h
        have hadd (b : Bool) : add { d with space := b } t = { d with space := true } := by
          simp [add, hs]
        obtain ⟨-, htrue⟩ := ih hd hsplit
        rw [List.foldl_cons, List.foldl_cons, hadd, hadd, htrue]
        exact ⟨rfl, rfl⟩
      · rw [if_neg hs] at h
        cases h
        have hfalse (done : List Token) :=
          (ih (d := { done := t :: done, blank := false }) (List.cons_ne_nil t done) hsplit).1
        have hgap : add { d with space := true } t =
            { done := t :: Token.space t.pos :: d.done, space := false, blank := false } := by
          simp [add, hs, hd]
        have hnone : add { d with space := false } t =
            { done := t :: d.done, space := false, blank := false } := by
          simp [add, hs]
        rw [List.foldl_cons, List.foldl_cons, hgap, hnone, hfalse, hfalse]
        simp [Token.behindSpace]

/-- An empty draft takes the tokens with their white space reduced. -/
theorem foldl_add_empty {d : Draft} (hd : d.done = []) (ts : List Token) :
    (ts.foldl add d).done.reverse = Token.respaced ts := by
  induction ts generalizing d with
  | nil =>
      rw [List.foldl_nil, hd]
      rfl
  | cons t ts ih =>
      by_cases hs : t.isSpace = true
      · have hadd : (add d t).done = [] := by
          rw [add, if_pos hs]
          exact hd
        rw [List.foldl_cons, ih hadd, Token.respaced, Token.respaced, Token.runs_cons_space hs]
      · obtain ⟨r, rs, hsplit⟩ :=
          List.exists_cons_of_ne_nil (List.splitOnP_ne_nil Token.isSpace ts)
        have hadd : add d t = { done := [t], space := false, blank := false } := by
          simp [add, hs, hd]
        have hstarted := (foldl_add_started (d := { done := [t], blank := false })
          (List.cons_ne_nil t []) hsplit).1
        rw [List.foldl_cons, hadd, hstarted, Token.respaced, Token.runs_cons_solid hs hsplit]
        rfl

/-- Whether the last element was empty has no influence on the tokens. -/
theorem foldl_add_blank (d : Draft) (b : Bool) (ts : List Token) :
    (ts.foldl add { d with blank := b }).done = (ts.foldl add d).done := by
  induction ts generalizing d with
  | nil => rfl
  | cons t ts ih =>
      by_cases hs : t.isSpace = true
      · have hadd (d : Draft) : add d t = { d with space := true } := by rw [add, if_pos hs]
        rw [List.foldl_cons, List.foldl_cons, hadd, hadd]
        exact ih { d with space := true }
      · rw [List.foldl_cons, List.foldl_cons, add, add, if_neg hs, if_neg hs]

end Draft

/-- What stands for a token of a body without operators: for a parameter the argument at its
position, expanded. -/
def inPlace (m : Macro) (args : List Argument) (t : Token) : List Token :=
  match if t.kind = .identifier then m.params.idxOf? t.text else none with
  | some k => args[k]?.elim [] Argument.expanded
  | none => [t]

section InPlace

variable {m : Macro} {args : List Argument} {t : Token}

theorem inPlace_space (ht : t.isSpace = true) : inPlace m args t = [t] := by
  rw [inPlace, if_neg (Token.kind_ne_identifier_of_isSpace ht)]

theorem inPlace_eq (ha : args.length = m.params.length) (t : Token) :
    inPlace m args t =
      match argument? (m.params.zip args) t with
      | some a => a.expanded
      | none => [t] := by
  rw [inPlace, argument?, ← Indexed.argumentNamed_eq, Indexed.argumentNamed]
  by_cases hk : t.kind = .identifier
  · rw [if_pos hk, if_pos hk]
    cases hi : m.params.idxOf? t.text with
    | none => rfl
    | some k =>
        obtain ⟨hlt, -⟩ := List.findIdx?_eq_some_iff_getElem.1 hi
        rw [← ha] at hlt
        simp only [Option.bind_some, List.getElem?_eq_getElem hlt, Option.elim_some]
  · rw [if_neg hk, if_neg hk]

theorem beforePaste_eq_false {ts : List Token} (h : ∀ t ∈ ts, t.isPaste = false) :
    beforePaste ts = false := by
  rw [Placemarker.beforePaste_eq]
  cases hd : Token.solid ts with
  | nil => rfl
  | cons t us =>
      have ht : t ∈ Token.solid ts := by
        rw [hd]
        exact List.mem_cons_self
      exact h t (List.mem_filter.1 ht).1

/-- A token that is no operator, with none behind it, makes one element. -/
theorem elements_inPlace (ha : args.length = m.params.length) (hs : t.isSpace = false)
    (hp : t.isPaste = false) (hh : ¬(m.functionLike && t.isHash) = true) {ts : List Token}
    (hts : ∀ u ∈ ts, u.isPaste = false) (space : Bool) :
    elements m (m.params.zip args) space false (t :: ts) =
      .tokens space (inPlace m args t) :: elements m (m.params.zip args) false false ts := by
  rw [Indexed.elements_plain hs hp (Indexed.stringized?_of_not_hash hh ts),
    beforePaste_eq_false hts, inPlace_eq ha]
  rfl

/-- Elements without operators are put together like the tokens that stand for them. White space
in front of an element has the effect of a token of white space there. -/
theorem assemble_elements (ha : args.length = m.params.length) {body : List Token}
    (hpaste : ∀ t ∈ body, t.isPaste = false)
    (hhash : ∀ t ∈ body, ¬(m.functionLike && t.isHash) = true) (d : Draft) (space : Bool) :
    ∃ d', assemble d (elements m (m.params.zip args) space false body) = .ok d' ∧
      d'.done = ((body.flatMap (inPlace m args)).foldl Draft.add
        { d with space := d.space || space }).done := by
  induction body generalizing d space with
  | nil => exact ⟨d, by rw [elements, assemble], rfl⟩
  | cons t ts ih =>
      obtain ⟨htp, hpaste⟩ := List.forall_mem_cons.1 hpaste
      obtain ⟨hth, hhash⟩ := List.forall_mem_cons.1 hhash
      rw [List.flatMap_cons, List.foldl_append]
      cases hs : t.isSpace with
      | true =>
          obtain ⟨d', hd, hdone⟩ := ih hpaste hhash d true
          refine ⟨d', by rw [Indexed.elements_space hs]; exact hd, ?_⟩
          rw [hdone, inPlace_space hs, List.foldl_cons, List.foldl_nil, Draft.add, if_pos hs,
            Bool.or_true]
      | false =>
          rw [elements_inPlace ha hs htp hth hpaste, assemble]
          obtain ⟨d', hd, hdone⟩ := ih hpaste hhash
            (({ d with space := d.space || space } : Draft).addAll (inPlace m args t)) false
          refine ⟨d', hd, ?_⟩
          rw [hdone, Bool.or_false, Draft.addAll, ← List.foldl_append, ← List.foldl_append]
          exact Draft.foldl_add_blank _ true _

end InPlace

/-- Without operators in the body, a replacement is the body with the expanded arguments in the
place of the parameters, and with its white space reduced. -/
theorem substitute_eq_respaced {m : Macro} {args : List Argument}
    (ha : args.length = m.params.length) (hpaste : ∀ t ∈ m.body, t.isPaste = false)
    (hhash : m.functionLike = true → ∀ t ∈ m.body, t.isHash = false) :
    substitute m args = .ok (Token.respaced (m.body.flatMap (inPlace m args))) := by
  have hhash : ∀ t ∈ m.body, ¬(m.functionLike && t.isHash) = true := by
    intro t ht h
    obtain ⟨hf, hh⟩ := Bool.and_eq_true_iff.1 h
    rw [hhash hf t ht] at hh
    cases hh
  obtain ⟨d, hd, hdone⟩ := assemble_elements ha hpaste hhash {} false
  rw [substitute, hd, except_ok_bind, hdone]
  exact congrArg Except.ok (Draft.foldl_add_empty rfl _)

end Substitution

namespace Placemarker

/-- An invocation gives an argument to every parameter. -/
theorem Bound.length_eq {m : Macro} (hm : m.WellFormed) {args : List Argument} (h : Bound m args) :
    args.length = m.params.length := by
  cases h with
  | object hf =>
      rw [hm.params_object hf]
      rfl
  | function _ _ ha hx =>
      rw [← Arguments.length_of_assign ha, ← written_of_expandArguments hx, List.length_map]

end Placemarker

namespace Substitution

open Placemarker (Bound)

/-- For a macro that a source leads to, and whatever arguments an invocation gives to it, the
replacement is well spaced. If the body has no joining operator, and no `#` where that is an
operator, there is a replacement: the body with every parameter replaced by its expanded argument,
without white space at the ends and with one space in the place of all white space between two
tokens. -/
theorem wellSpaced_of_reachable {T : Table} (hT : T.Reachable) {m : Macro} (hm : m ∈ T.entries)
    {args : List Argument} (hargs : Bound m args) :
    (∀ ts, substitute m args = .ok ts → WellSpaced ts) ∧
      ((∀ t ∈ m.body, t.isPaste = false) →
        (m.functionLike = true → ∀ t ∈ m.body, t.isHash = false) →
        substitute m args = .ok (Token.respaced (m.body.flatMap (inPlace m args)))) := by
  have hlen := hargs.length_eq (hT.wellFormed.macros hm)
  exact ⟨fun ts => wellSpaced_substitute, substitute_eq_respaced hlen⟩

namespace Sample

/-- A macro with white space around a parameter and in front of a parenthesis. -/
def spacing : Text :=
  ascii "#define f(x, y) x  y (x )\n"

def name : Token :=
  { kind := .identifier, text := ascii "f" }

/-- An argument on two lines. -/
def lines : List Token :=
  [{ kind := .identifier, text := ascii "a" },
    { kind := .whitespace, text := [Byte.lineFeed], newline := true },
    { kind := .identifier, text := ascii "b" }]

/-- The argument on two lines and an empty one, through the closing parenthesis. -/
def given : List Token :=
  lines ++ [{ kind := .punctuator, text := ascii "," }, { kind := .punctuator, text := ascii ")" }]

def arguments : List Argument :=
  [⟨lines, lines⟩, ⟨[], []⟩]

end Sample

open Sample in
/-- The white space on both sides of the empty argument comes out as one space, and so does the
line end. -/
theorem wellSpaced_of_reachable_emptyArgument :
    ∃ (T : Table) (m : Macro) (ts : List Token), T.Reachable ∧ m ∈ T.entries ∧
      Bound m arguments ∧
      (∀ t ∈ m.body, t.isPaste = false) ∧ (∀ t ∈ m.body, t.isHash = false) ∧
      substitute m arguments = .ok ts ∧ WellSpaced ts ∧
      ts.flatMap Token.text = ascii "a b (a b )" := by
  have hcheck : (({} : Preprocessor).runWithin 9 spacing).any (fun r =>
      r.2.2.entries.any fun m => m.functionLike ∧ (∀ t ∈ m.body, t.isPaste = false) ∧
        (∀ t ∈ m.body, t.isHash = false) ∧
        (Arguments.assign m name [lines, []]).toOption = some [lines, []] ∧
        (Token.respaced (m.body.flatMap (inPlace m arguments))).flatMap Token.text =
          ascii "a b (a b )") = true := by
    decide +kernel
  have hcollect : (Arguments.collect name 0 given).1.toOption = some [lines, []] := by
    decide +kernel
  have hwithin : (Expansion.argumentsWithin (Expansion.expandWithin {} false 9 0 [])
      [lines, []]).bind Except.toOption = some arguments := by
    decide +kernel
  obtain ⟨as, has, hargs⟩ := Option.bind_eq_some_iff.1 hwithin
  have hexpand : Expansion.expandArguments (Expansion.expandAt {} false 0 []) [lines, []] =
      .ok arguments :=
    (Expansion.expandArguments_of_within Expansion.expandAt_of_within has).trans
      (except_eq_ok_of_toOption hargs)
  obtain ⟨⟨us, e, T⟩, hr, hT⟩ := (Option.any_eq_true _ _).1 hcheck
  obtain ⟨m, hm, hm'⟩ := List.any_eq_true.1 hT
  obtain ⟨hf, hpaste, hhash, hassign, htext⟩ := of_decide_eq_true hm'
  obtain ⟨events, hrun⟩ := Preprocessor.run_of_runWithin hr []
  have hreach : T.Reachable := by
    have hend := Table.Reachable.run (p := {}) [] spacing .empty
    rwa [hrun] at hend
  have hbound : Bound m arguments :=
    .function hf (Prod.ext (except_eq_ok_of_toOption hcollect) rfl)
      (except_eq_ok_of_toOption hassign) hexpand
  obtain ⟨hspaced, heq⟩ := wellSpaced_of_reachable hreach hm hbound
  have heq := heq hpaste fun _ => hhash
  exact ⟨T, m, _, hreach, hm, hbound, hpaste, hhash, heq, hspaced _ heq, htext⟩

end Substitution
end CPreprocessor

import CPreprocessor.Proofs.Macro.Evaluation
import CPreprocessor.Proofs.Macro.IndexedSubstitution
import CPreprocessor.Proofs.Preprocessor.ReachableTable
import CPreprocessor.Proofs.Printer.Rendering

/-!
Substitution with placemarkers. The joining operators divide the body of a macro into chains of
operands. A chain is joined from left to right: an empty operand leaves the other one as it is,
and where two operands meet, the words next to each other become one. Substitution, which joins
with the tokens it has put out already, gives the words of all chains, and it fails exactly if
two words do not join.
-/

namespace CPreprocessor
namespace Placemarker

open Substitution (Bindings Element Draft argument? stringOf stringized? elements assemble
  substitute beforePaste)

/-- A token without its place. -/
abbrev Word := Kind × Text

/-- The words of tokens, white space left out. -/
def words (ts : List Token) : List Word :=
  (Token.solid ts).map Token.word

/-- The one word that is read where two stand together, if it is neither white space nor
invalid. -/
def glue (l r : Word) : Option Word :=
  match tokenize (l.2 ++ r.2) with
  | ⟨[t], none⟩ => if t.kind = .whitespace ∨ t.kind = .invalid then none else some t.word
  | _ => none

/-- Joins two operands at the last word of the one and the first of the other. -/
def join (l r : List Word) : Option (List Word) :=
  match l.getLast?, r with
  | none, r => some r
  | some _, [] => some l
  | some a, b :: r => (glue a b).map fun c => l.dropLast ++ c :: r

/-- What stands between the joining operators of a body. -/
inductive Operand where
  | string (a : Argument)
  | argument (a : Argument)
  | plain (t : Token)
deriving DecidableEq, Repr

/-- The words an operand stands for, in a chain with others or alone. -/
def Operand.value (chained : Bool) : Operand → List Word
  | string a => words [stringOf {} a.written]
  | argument a => words (if chained then a.written else a.expanded)
  | plain t => words [t]

/-- The operand at the front of a body without white space, and the body behind it. -/
def operand (m : Macro) (args : Bindings) (t : Token) (ts : List Token) :
    Operand × List Token :=
  match if m.functionLike && t.isHash then ts.head?.bind (argument? args) else none with
  | some a => (.string a, ts.tail)
  | none =>
    match argument? args t with
    | some a => (.argument a, ts)
    | none => (.plain t, ts)

/-- Puts an operand in front of the first chain. -/
def link (o : Operand) : List (List Operand) → List (List Operand)
  | [] => [[o]]
  | c :: cs => (o :: c) :: cs

theorem length_operand_le (m : Macro) (args : Bindings) (t : Token) (ts : List Token) :
    (operand m args t ts).2.length ≤ ts.length := by
  unfold operand
  split
  · simp
  · split <;> exact Nat.le_refl _

/-- The chains of a body without white space: operands with joining operators between them. -/
def chains (m : Macro) (args : Bindings) (body : List Token) : List (List Operand) :=
  match body with
  | [] => []
  | t :: ts =>
    match _h : operand m args t ts with
    | (o, []) => [[o]]
    | (o, p :: rest) =>
      if p.isPaste then link o (chains m args rest) else [o] :: chains m args (p :: rest)
termination_by body.length
decreasing_by
  all_goals
    have := length_operand_le m args t ts
    simp only [_h, List.length_cons] at this ⊢
    omega

/-- Joins operands one after the other to the words so far. -/
def joinAll (v : List Word) (os : List Operand) : Option (List Word) :=
  os.foldlM (fun v o => join v (o.value true)) v

/-- The words of a chain. -/
def chainValue : List Operand → Option (List Word)
  | [] => some []
  | [o] => some (o.value false)
  | o :: os => joinAll (o.value true) os

/-- The words of the chains one after the other. -/
def chainsValue (cs : List (List Operand)) : Option (List Word) :=
  (cs.mapM chainValue).map List.flatten

/-- The words that an invocation is replaced by. -/
def replacementWords (m : Macro) (args : List Argument) : Option (List Word) :=
  chainsValue (chains m (m.params.zip args) (Token.solid m.body))

/-- Whether no joining operator stands directly behind another. -/
def pastesApart : List Token → Bool
  | t :: u :: ts => !(t.isPaste && u.isPaste) && pastesApart (u :: ts)
  | _ => true

/-- The arguments that an invocation can give to a macro. -/
inductive Bound (m : Macro) : List Argument → Prop where
  | object : m.functionLike = false → Bound m []
  | function {ρ : Type} [TokenStream ρ] {name : Token} {r rest : ρ}
      {raw written : List (List Token)} {T : Table} {keep : Bool} {depth : Nat}
      {args : List Argument} : m.functionLike = true →
      Arguments.collect name 0 r = (.ok raw, rest) →
      Arguments.assign m name (raw.map Token.trim) = .ok written →
      Expansion.expandArguments (Expansion.expandAt T keep depth []) written = .ok args →
      Bound m args

section Words

variable {t : Token} {ts us : List Token}

@[simp] theorem words_nil : words [] = [] :=
  rfl

theorem words_cons_space (h : t.isSpace = true) : words (t :: ts) = words ts := by
  simp [words, Token.solid, h]

theorem words_cons_solid (h : t.isSpace = false) : words (t :: ts) = t.word :: words ts := by
  simp [words, Token.solid, h]

theorem words_append (ts us : List Token) : words (ts ++ us) = words ts ++ words us := by
  simp [words, Token.solid]

end Words

theorem join_nil_left (r : List Word) : join [] r = some r :=
  rfl

theorem join_nil_right (l : List Word) : join l [] = some l := by
  unfold join
  split
  · rename_i h
    rw [List.getLast?_eq_none_iff.1 h]
  · rfl
  · contradiction

theorem join_concat (l : List Word) (a b : Word) (r : List Word) :
    join (l ++ [a]) (b :: r) = (glue a b).map fun c => l ++ c :: r := by
  simp [join]

section Drafts

open Substitution (paste)

/-- The pasted token is the word that is read where the two stand together. -/
theorem glue_of_paste {l r : Token} :
    glue l.word r.word = (paste l r).toOption.map Token.word := by
  simp only [glue, paste, Token.word]
  generalize tokenize (l.text ++ r.text) = out
  obtain ⟨ts, error⟩ := out
  rcases ts with _ | ⟨t, _ | ⟨u, us⟩⟩
  · rfl
  · cases error with
    | none =>
        by_cases hk : t.kind = .whitespace ∨ t.kind = .invalid
        · simp only [if_pos hk]
          rfl
        · simp only [if_neg hk]
          rfl
    | some e => rfl
  · rfl

theorem solid_of_paste {l r t : Token} (h : paste l r = .ok t) : t.isSpace = false := by
  unfold paste at h
  split at h
  · split at h
    · cases h
    · rename_i hk
      cases h
      simpa [Token.isSpace] using (not_or.1 hk).1
  · cases h

/-- The draft has the words `v` of the last chain behind others, and a token of that chain on
top unless the chain is empty. -/
structure Holds (d : Draft) (before v : List Word) : Prop where
  words_eq : words d.done.reverse = before ++ v
  blank_iff : d.blank = true ↔ v = []
  top : d.blank = false → ∃ t ts, d.done = t :: ts ∧ t.isSpace = false

namespace Holds

variable {d : Draft} {before v : List Word}

theorem add (h : Holds d before v) (t : Token) : Holds (d.add t) before (v ++ words [t]) := by
  cases hs : t.isSpace with
  | true =>
      rw [Draft.add, if_pos hs, words_cons_space hs, words_nil, List.append_nil]
      exact ⟨h.words_eq, h.blank_iff, h.top⟩
  | false =>
      have hgap (b : Bool) : words (if b then [Token.space t.pos] else []).reverse = [] := by
        cases b <;> rfl
      rw [Draft.add, if_neg (by simp [hs])]
      refine ⟨?_, by simp [words_cons_solid hs], fun _ => ⟨t, _, rfl, hs⟩⟩
      simp only [List.cons_append, List.reverse_cons, List.reverse_append, words_append, hgap,
        List.nil_append, h.words_eq, List.append_assoc]

theorem foldl_add (h : Holds d before v) (ts : List Token) :
    Holds (ts.foldl Draft.add d) before (v ++ words ts) := by
  induction ts generalizing d v with
  | nil =>
      rw [words_nil, List.append_nil]
      exact h
  | cons t ts ih =>
      have hadd := ih (h.add t)
      rwa [List.append_assoc, ← words_append] at hadd

/-- Tokens that are added as a whole begin a chain. -/
theorem addAll (h : Holds d before v) (ts : List Token) :
    Holds (d.addAll ts) (before ++ v) (words ts) := by
  have hstart : Holds { d with blank := true } (before ++ v) [] :=
    ⟨by rw [List.append_nil]; exact h.words_eq, by simp, fun hb => by cases hb⟩
  exact hstart.foldl_add ts

/-- The token on top of a draft is the last word of its chain. -/
theorem exists_top (h : Holds d before v) (hb : d.blank = false) :
    ∃ last done w, d.done = last :: done ∧ v = w ++ [last.word] ∧
      words done.reverse = before ++ w := by
  obtain ⟨last, done, hdone, hlast⟩ := h.top hb
  have hne : v ≠ [] := fun hv => by simp [h.blank_iff.2 hv] at hb
  have hv : v = v.dropLast ++ [v.getLast hne] := (List.dropLast_concat_getLast hne).symm
  have heq := h.words_eq
  rw [hdone, List.reverse_cons, words_append, words_cons_solid hlast, words_nil, hv,
    ← List.append_assoc] at heq
  obtain ⟨hbefore, htop⟩ := List.append_inj' heq rfl
  refine ⟨last, done, v.dropLast, hdone, ?_, hbefore⟩
  rwa [← htop] at hv

/-- Operands are joined in the draft as their words are. -/
theorem join (h : Holds d before v) {ts : List Token}
    (hts : ∀ t, ts.head? = some t → t.isSpace = false) :
    (∀ d', d.join ts = .ok d' → ∃ w, Placemarker.join v (words ts) = some w ∧
      Holds d' before w) ∧
      ∀ e, d.join ts = .error e → Placemarker.join v (words ts) = none := by
  unfold Draft.join
  cases hb : d.blank with
  | true =>
      obtain rfl := h.blank_iff.1 hb
      refine ⟨fun d' hd => ?_, fun e he => by cases he⟩
      cases hd
      have hadd := h.addAll ts
      rw [List.append_nil] at hadd
      exact ⟨_, join_nil_left _, hadd⟩
  | false =>
      cases ts with
      | nil =>
          refine ⟨fun d' hd => ?_, fun e he => by cases he⟩
          cases hd
          exact ⟨v, join_nil_right v, h⟩
      | cons t ts =>
          obtain ⟨last, done, w, hdone, rfl, hw⟩ := h.exists_top hb
          rw [words_cons_solid (hts t rfl), join_concat, glue_of_paste, hdone]
          simp only [Bool.false_eq_true, if_false]
          cases hp : paste last t with
          | error e => exact ⟨fun d' hd => (by cases hd), fun _ _ => rfl⟩
          | ok joined =>
              refine ⟨fun d' hd => ?_, fun e he => by cases he⟩
              cases hd
              have hjoined := solid_of_paste hp
              have hstart : Holds { done := joined :: done, blank := false } before
                  (w ++ [joined.word]) := by
                refine ⟨?_, by simp, fun _ => ⟨joined, done, rfl, hjoined⟩⟩
                rw [List.reverse_cons, words_append, hw, words_cons_solid hjoined,
                  List.append_assoc]
                rfl
              obtain ⟨hwords, hblank, htop⟩ := hstart.foldl_add ts
              refine ⟨_, rfl, ?_, by simp, fun _ => htop ?_⟩
              · simpa using hwords
              · simpa using hblank

end Holds

/-- The words of elements behind a chain that has the words `v` so far. -/
def foldElements (v : List Word) : List Element → Option (List Word)
  | [] | [.paste] => some v
  | .tokens _ ts :: els => (foldElements (words ts) els).map (v ++ ·)
  | .paste :: el :: els => (join v (words el.toTokens)).bind fun w => foldElements w els

/-- The element does not start with white space. -/
def StartsSolid (el : Element) : Prop :=
  ∀ t, el.toTokens.head? = some t → t.isSpace = false

/-- What comes directly behind a joining operator does not start with white space. -/
def JoinsSolid : List Element → Prop
  | .paste :: el :: els => StartsSolid el ∧ JoinsSolid (el :: els)
  | _ :: els => JoinsSolid els
  | [] => True

theorem JoinsSolid.tail {el : Element} {els : List Element} (h : JoinsSolid (el :: els)) :
    JoinsSolid els := by
  cases el with
  | tokens s ts => exact h
  | paste =>
      cases els with
      | nil => trivial
      | cons el els => exact h.2

theorem words_assemble {d : Draft} {before v : List Word} (h : Holds d before v)
    {els : List Element} (hels : JoinsSolid els) :
    (assemble d els).toOption.map (fun d => words d.done.reverse) =
      (foldElements v els).map (before ++ ·) := by
  fun_induction assemble d els generalizing before v with
  | case1 d =>
      rw [foldElements]
      exact congrArg some h.words_eq
  | case2 d space ts els ih =>
      have hspace : Holds { d with space := d.space || space } before v :=
        ⟨h.words_eq, h.blank_iff, h.top⟩
      rw [ih (hspace.addAll ts) hels, foldElements, Option.map_map]
      refine congrArg (Option.map · _) (funext fun w => ?_)
      exact List.append_assoc before v w
  | case3 d =>
      rw [foldElements]
      exact congrArg some h.words_eq
  | case4 d el els ih =>
      obtain ⟨hel, hels⟩ := hels
      obtain ⟨hok, herror⟩ := h.join hel
      rw [foldElements]
      cases hj : d.join el.toTokens with
      | error e =>
          rw [herror e hj]
          rfl
      | ok d' =>
          obtain ⟨w, hw, hd'⟩ := hok d' hj
          rw [hw]
          exact ih d' hd' hels.tail

end Drafts

section Bodies

variable {m : Macro} {args : Bindings}

theorem solid_dropWhile (ts : List Token) :
    Token.solid (ts.dropWhile Token.isSpace) = Token.solid ts := by
  induction ts with
  | nil => rfl
  | cons t ts ih =>
      cases ht : t.isSpace with
      | true => simpa [Token.solid, ht] using ih
      | false => rw [List.dropWhile_cons_of_neg (by simp [ht])]

theorem solid_of_dropWhile {ts us : List Token} {t : Token}
    (h : ts.dropWhile Token.isSpace = t :: us) :
    t.isSpace = false ∧ Token.solid ts = t :: Token.solid us := by
  have ht : t.isSpace = false := Token.head?_dropWhile_isSpace (by rw [h]; rfl)
  refine ⟨ht, ?_⟩
  rw [← solid_dropWhile, h]
  simp [Token.solid, ht]

theorem solid_of_dropWhile_nil {ts : List Token} (h : ts.dropWhile Token.isSpace = []) :
    Token.solid ts = [] := by
  rw [← solid_dropWhile, h]
  rfl

theorem beforePaste_eq (ts : List Token) :
    beforePaste ts = (Token.solid ts).head?.any Token.isPaste := by
  rw [beforePaste]
  cases hd : ts.dropWhile Token.isSpace with
  | nil => rw [solid_of_dropWhile_nil hd]
  | cons t us => rw [(solid_of_dropWhile hd).2]; rfl

theorem operand_of_stringized {t : Token} {ts rest : List Token} {a : Argument}
    (h : stringized? m args t ts = some (a, rest)) :
    operand m args t (Token.solid ts) = (.string a, Token.solid rest) := by
  unfold stringized? at h
  split at h
  · rename_i hh
    split at h
    · rename_i p us hd
      obtain ⟨b, hb, heq⟩ := Option.map_eq_some_iff.1 h
      cases heq
      simp [operand, hh, (solid_of_dropWhile hd).2, hb]
    · cases h
  · cases h

theorem operand_of_not_stringized {t : Token} {ts : List Token}
    (h : stringized? m args t ts = none) :
    operand m args t (Token.solid ts) =
      match argument? args t with
      | some a => (.argument a, Token.solid ts)
      | none => (.plain t, Token.solid ts) := by
  have hnone : (if m.functionLike && t.isHash then (Token.solid ts).head?.bind (argument? args)
      else none) = none := by
    unfold stringized? at h
    split at h
    · rename_i hh
      rw [if_pos hh]
      split at h
      · rename_i p us hd
        rw [(solid_of_dropWhile hd).2]
        simpa using h
      · rename_i hd
        rw [solid_of_dropWhile_nil hd]
        rfl
    · rename_i hh
      rw [if_neg hh]
  rw [operand, hnone]

/-- A token that is no operator begins an operand, and the elements go on behind it. -/
theorem elements_operand {t : Token} (ht : t.isSpace = false) (hp : t.isPaste = false)
    (space pasted : Bool) (ts : List Token) :
    ∃ us rest o, elements m args space pasted (t :: ts) =
        .tokens space us :: elements m args false false rest ∧
      operand m args t (Token.solid ts) = (o, Token.solid rest) ∧
      words us = o.value (pasted || beforePaste rest) ∧ rest <:+ ts := by
  cases hs : stringized? m args t ts with
  | some x =>
      obtain ⟨a, rest⟩ := x
      exact ⟨_, rest, .string a, Indexed.elements_string ht hp hs, operand_of_stringized hs, rfl,
        Indexed.suffix_of_stringized? hs⟩
  | none =>
      rw [Indexed.elements_plain ht hp hs, operand_of_not_stringized hs]
      cases argument? args t with
      | some a => exact ⟨_, ts, .argument a, rfl, rfl, rfl, List.suffix_refl ts⟩
      | none => exact ⟨_, ts, .plain t, rfl, rfl, rfl, List.suffix_refl ts⟩

/-- White space in front of a body has no influence on what the elements are made of. -/
theorem elements_dropWhile (space pasted : Bool) (body : List Token) :
    ∃ s, elements m args space pasted body =
      elements m args s pasted (body.dropWhile Token.isSpace) := by
  induction body generalizing space with
  | nil => exact ⟨space, rfl⟩
  | cons t ts ih =>
      cases ht : t.isSpace with
      | true =>
          rw [Indexed.elements_space ht, List.dropWhile_cons_of_pos ht]
          exact ih true
      | false =>
          rw [List.dropWhile_cons_of_neg (by simp [ht])]
          exact ⟨space, rfl⟩

/-- What the elements of a body begin with, by its first token that is not white space. -/
inductive BodyCase (m : Macro) (args : Bindings) (pasted : Bool) (body : List Token) :
    List Element → Prop where
  | blank : Token.solid body = [] → BodyCase m args pasted body []
  | joins {t rest} : Token.solid body = t :: Token.solid rest → t.isPaste = true →
      rest.length < body.length →
      BodyCase m args pasted body (.paste :: elements m args false true rest)
  | operand {t ts o space us rest} : Token.solid body = t :: ts → t.isPaste = false →
      operand m args t ts = (o, Token.solid rest) →
      words us = o.value (pasted || (Token.solid rest).head?.any Token.isPaste) →
      Token.solid rest <:+ ts → rest.length < body.length →
      BodyCase m args pasted body (.tokens space us :: elements m args false false rest)

theorem elements_cases (space pasted : Bool) (body : List Token) :
    BodyCase m args pasted body (elements m args space pasted body) := by
  have hlen := (List.dropWhile_suffix (l := body) Token.isSpace).length_le
  obtain ⟨s, hs⟩ := @elements_dropWhile m args space pasted body
  rw [hs]
  cases hd : body.dropWhile Token.isSpace with
  | nil =>
      rw [elements]
      exact .blank (solid_of_dropWhile_nil hd)
  | cons t ts =>
      obtain ⟨ht, hsolid⟩ := solid_of_dropWhile hd
      rw [hd, List.length_cons] at hlen
      cases hp : t.isPaste with
      | true =>
          rw [Indexed.elements_paste ht hp]
          exact .joins hsolid hp hlen
      | false =>
          obtain ⟨us, rest, o, hel, ho, hus, hsuf⟩ :=
            @elements_operand m args t ht hp s pasted ts
          rw [hel]
          rw [beforePaste_eq] at hus
          exact .operand hsolid hp ho hus (hsuf.filter _) (by have := hsuf.length_le; omega)

/-- Arguments are not written with white space in front. -/
def WrittenSolid (args : Bindings) : Prop :=
  ∀ x ∈ args, ∀ t, x.2.written.head? = some t → t.isSpace = false

theorem mem_of_argument? {t : Token} {a : Argument} (h : argument? args t = some a) :
    (t.text, a) ∈ args := by
  unfold argument? at h
  split at h
  · obtain ⟨us, vs, rfl, -⟩ := List.lookup_eq_some_iff.1 h
    simp
  · cases h

theorem joinsSolid_elements (hargs : WrittenSolid args) (space pasted : Bool) (body : List Token) :
    JoinsSolid (elements m args space pasted body) ∧
      (pasted = true → ∀ el, (elements m args space pasted body).head? = some el →
        StartsSolid el) := by
  fun_induction elements m args space pasted body with
  | case1 => exact ⟨trivial, fun _ el hel => by cases hel⟩
  | case2 space pasted t ts ht ih => exact ih
  | case3 space pasted t ts ht hp ih =>
      refine ⟨?_, fun _ el hel => ?_⟩
      · cases hels : elements m args false true ts with
        | nil => trivial
        | cons el els =>
            rw [hels] at ih
            exact ⟨ih.2 rfl el rfl, ih.1⟩
      · cases hel
        intro t ht
        cases ht
  | case4 space pasted t ts ht hp a rest hs ih =>
      refine ⟨ih.1, fun _ el hel => ?_⟩
      cases hel
      intro u hu
      cases hu
      rfl
  | case5 space pasted t ts ht hp hs us ih =>
      refine ⟨ih.1, fun hpasted el hel => ?_⟩
      cases hel
      change ∀ u, us.head? = some u → u.isSpace = false
      simp only [us, hpasted, Bool.true_or]
      split
      · rename_i a ha
        exact hargs _ (mem_of_argument? ha)
      · intro u hu
        cases hu
        exact Bool.eq_false_iff.2 ht

end Bodies

section Chains

variable {m : Macro} {args : Bindings}

theorem chainsValue_cons (c : List Operand) (cs : List (List Operand)) :
    chainsValue (c :: cs) =
      (chainValue c).bind fun w => (chainsValue cs).map (w ++ ·) := by
  simp only [chainsValue, List.mapM_cons]
  cases chainValue c with
  | none => rfl
  | some w => cases cs.mapM chainValue <;> rfl

/-- The words of chains whose first one goes on behind the words `w`. -/
def resumed (w : List Word) : List (List Operand) → Option (List Word)
  | [] => some w
  | c :: cs => (joinAll w c).bind fun v => (chainsValue cs).map (v ++ ·)

/-- The words of a body behind an operand that ends a chain, or is joined, with the words `w`. -/
def valueAfter (m : Macro) (args : Bindings) (w : List Word) (ts : List Token) :
    Option (List Word) :=
  if ts.head?.any Token.isPaste then resumed w (chains m args ts.tail)
  else (chainsValue (chains m args ts)).map (w ++ ·)

theorem chains_of_operand {t : Token} {ts rest : List Token} {o : Operand}
    (h : operand m args t ts = (o, rest)) :
    chains m args (t :: ts) =
      if rest.head?.any Token.isPaste then link o (chains m args rest.tail)
      else [o] :: chains m args rest := by
  rw [chains]
  split
  · rename_i h'
    rw [h] at h'
    cases h'
    rw [chains]
    rfl
  · rename_i p us h'
    rw [h] at h'
    cases h'
    rfl

/-- No chain is empty. -/
theorem exists_chains_cons (m : Macro) (args : Bindings) (t : Token) (ts : List Token) :
    ∃ o c cs, chains m args (t :: ts) = (o :: c) :: cs := by
  rcases ho : operand m args t ts with ⟨o, rest⟩
  rw [chains_of_operand ho]
  split
  · cases chains m args rest.tail with
    | nil => exact ⟨o, [], [], rfl⟩
    | cons c cs => exact ⟨o, c, cs, rfl⟩
  · exact ⟨o, [], _, rfl⟩

theorem joinAll_cons (w : List Word) (o : Operand) (os : List Operand) :
    joinAll w (o :: os) = (join w (o.value true)).bind fun v => joinAll v os := by
  rw [joinAll, List.foldlM_cons]
  rfl

theorem chainsValue_nil : chainsValue [] = some [] :=
  rfl

/-- A body has the words of its first operand, which is in a chain if it is joined to the next. -/
theorem chainsValue_of_operand {t : Token} {ts rest : List Token} {o : Operand}
    (h : operand m args t ts = (o, rest))
    (hend : rest.head?.any Token.isPaste = true → rest.tail ≠ []) :
    chainsValue (chains m args (t :: ts)) =
      valueAfter m args (o.value (rest.head?.any Token.isPaste)) rest := by
  rw [chains_of_operand h, valueAfter]
  split
  · rename_i hp
    obtain ⟨u, us, hu⟩ := List.exists_cons_of_ne_nil (hend hp)
    obtain ⟨o', c, cs, hc⟩ := exists_chains_cons m args u us
    rw [hu, hc, link, chainsValue_cons, hp]
    rfl
  · rename_i hp
    rw [chainsValue_cons, Bool.eq_false_iff.2 hp]
    rfl

/-- Behind a joining operator the first operand is joined, and the body goes on behind it. -/
theorem resumed_of_operand {t : Token} {ts rest : List Token} {o : Operand}
    (h : operand m args t ts = (o, rest)) (w : List Word) :
    resumed w (chains m args (t :: ts)) =
      (join w (o.value true)).bind fun v => valueAfter m args v rest := by
  rw [chains_of_operand h]
  split
  · rename_i hp
    simp only [valueAfter, if_pos hp]
    cases chains m args rest.tail with
    | nil =>
        rw [link, resumed, joinAll_cons, Option.bind_assoc]
        simp [joinAll, chainsValue_nil, resumed]
    | cons c cs =>
        rw [link, resumed, joinAll_cons, Option.bind_assoc]
        rfl
  · rename_i hp
    simp only [valueAfter, if_neg hp]
    rw [resumed, joinAll_cons, Option.bind_assoc]
    rfl

/-- Joining operators have operands on both sides. -/
structure Joined (ts : List Token) : Prop where
  apart : pastesApart ts = true
  last : ∀ t, ts.getLast? = some t → t.isPaste = false

namespace Joined

theorem tail {t : Token} {ts : List Token} (h : Joined (t :: ts)) : Joined ts := by
  obtain ⟨hapart, hlast⟩ := h
  cases ts with
  | nil => exact ⟨rfl, fun u hu => nomatch hu⟩
  | cons u ts =>
      rw [pastesApart, Bool.and_eq_true] at hapart
      exact ⟨hapart.2, fun v hv => hlast v (by rw [List.getLast?_cons, hv]; rfl)⟩

theorem of_suffix {ts us : List Token} (h : Joined ts) (hs : us <:+ ts) : Joined us := by
  obtain ⟨vs, rfl⟩ := hs
  induction vs with
  | nil => exact h
  | cons v vs ih => exact ih h.tail

/-- Behind a joining operator an operand comes. -/
theorem exists_operand {p : Token} {ts : List Token} (h : Joined (p :: ts))
    (hp : p.isPaste = true) : ∃ t us, ts = t :: us ∧ t.isPaste = false := by
  obtain ⟨hapart, hlast⟩ := h
  cases ts with
  | nil => simp [hp] at hlast
  | cons t us =>
      rw [pastesApart, hp, Bool.true_and, Bool.and_eq_true, Bool.not_eq_true'] at hapart
      exact ⟨t, us, rfl, hapart.1⟩

theorem tail_ne_nil {ts : List Token} (h : Joined ts) (hp : ts.head?.any Token.isPaste = true) :
    ts.tail ≠ [] := by
  cases ts with
  | nil => cases hp
  | cons p ts =>
      obtain ⟨t, us, rfl, -⟩ := h.exists_operand hp
      exact List.cons_ne_nil t us

end Joined

/-- The elements of a body have the words of its chains. The induction is on the length of the
body, whose elements are taken operand by operand, each with the operator in front of it. -/
theorem foldElements_elements {body : List Token} (hbody : Joined (Token.solid body))
    (w : List Word) (space : Bool) :
    foldElements w (elements m args space false body) =
      valueAfter m args w (Token.solid body) := by
  induction hn : body.length using Nat.strongRecOn generalizing body w space with
  | ind n ih =>
      subst hn
      have hcase := @elements_cases m args space false body
      generalize elements m args space false body = els at hcase
      cases hcase with
      | blank hsolid =>
          rw [hsolid, valueAfter, chains, foldElements]
          simp [chainsValue_nil]
      | operand hsolid hp ho hus hsuf hlt =>
          rw [hsolid] at hbody ⊢
          have hrest := hbody.tail.of_suffix hsuf
          rw [foldElements, ih _ hlt hrest _ _ rfl, hus, Bool.false_or,
            ← chainsValue_of_operand ho hrest.tail_ne_nil, valueAfter]
          simp [hp]
      | joins hsolid hp hlt =>
          rename_i t rest
          rw [hsolid] at hbody ⊢
          obtain ⟨u, us, hu, hup⟩ := hbody.exists_operand hp
          have hnext := @elements_cases m args false true rest
          generalize elements m args false true rest = els at hnext
          cases hnext with
          | blank hblank =>
              rw [hblank] at hu
              cases hu
          | joins hv hvp =>
              rw [hv] at hu
              cases hu
              simp [hup] at hvp
          | operand hv _ ho hus hsuf hlt' =>
              rw [hv] at hbody ⊢
              have hrest := hbody.tail.tail.of_suffix hsuf
              have hih (v : List Word) := ih _ (Nat.lt_trans hlt' hlt) hrest v false rfl
              simp only [foldElements, Element.toTokens, hus, Bool.true_or, hih, valueAfter,
                List.head?_cons, Option.any_some, hp, if_true, List.tail_cons,
                resumed_of_operand ho]

end Chains

section Arguments

variable {m : Macro}

/-- No argument starts with white space. -/
def TrimmedFront (as : List (List Token)) : Prop :=
  ∀ a ∈ as, ∀ t, a.head? = some t → t.isSpace = false

theorem head?_joined (pos : Pos) {as : List (List Token)} (h : TrimmedFront as) {t : Token}
    (ht : (Arguments.joined pos as).head? = some t) : t.isSpace = false := by
  fun_induction Arguments.joined pos as with
  | case1 => cases ht
  | case2 a => exact h a List.mem_cons_self t ht
  | case3 a as _ ih =>
      cases a with
      | nil =>
          cases ht
          rfl
      | cons u a => exact h (u :: a) List.mem_cons_self t ht

theorem trimmedFront_of_assign {name : Token} {raw written : List (List Token)}
    (hraw : TrimmedFront raw) (h : Arguments.assign m name raw = .ok written) :
    TrimmedFront written := by
  unfold Arguments.assign at h
  simp only at h
  split at h
  · split at h
    · cases h
      exact fun a ha => nomatch ha
    · cases h
  · split at h
    · split at h
      · cases h
      · cases h
        refine List.forall_mem_append.2 ⟨fun a ha => hraw a (List.mem_of_mem_take ha), ?_⟩
        refine List.forall_mem_singleton.2 fun t ht => head?_joined _ ?_ ht
        exact fun a ha => hraw a (List.mem_of_mem_drop ha)
    · split at h
      · cases h
      · split at h
        · cases h
        · cases h
          exact hraw

theorem written_of_expandArguments {expand : List Token → Output} {raw : List (List Token)}
    {args : List Argument} (h : Expansion.expandArguments expand raw = .ok args) :
    args.map Argument.written = raw := by
  induction raw generalizing args with
  | nil =>
      cases h
      rfl
  | cons a raw ih =>
      rw [Expansion.expandArguments] at h
      split at h
      · cases h
      · obtain ⟨as, has, rfl⟩ := except_map_eq_ok h
        rw [List.map_cons, ih has]

theorem Bound.writtenSolid {args : List Argument} (h : Bound m args) :
    WrittenSolid (m.params.zip args) := by
  have hwritten : TrimmedFront (args.map Argument.written) := by
    cases h with
    | object => exact fun a ha => nomatch ha
    | function _ _ ha hx =>
        rw [written_of_expandArguments hx]
        refine trimmedFront_of_assign (fun a ha t ht => ?_) ha
        obtain ⟨b, -, rfl⟩ := List.mem_map.1 ha
        exact Token.head?_trim ht
  intro x hx
  exact hwritten x.2.written (List.mem_map_of_mem (List.of_mem_zip hx).2)

end Arguments

section Failure

/-- Somewhere in the chain two words meet that do not join. -/
def Clashes (c : List Operand) : Prop :=
  ∃ o os o' os' l a b r, c = o :: os ++ o' :: os' ∧
    joinAll (o.value true) os = some (l ++ [a]) ∧
    o'.value true = b :: r ∧ glue a b = none

theorem join_eq_none {v r : List Word} (h : join v r = none) :
    ∃ l a b r', v = l ++ [a] ∧ r = b :: r' ∧ glue a b = none := by
  unfold join at h
  split at h
  · cases h
  · cases h
  · rename_i a b r' hv
    obtain ⟨l, rfl⟩ := List.getLast?_eq_some_iff.1 hv
    exact ⟨l, a, b, r', rfl, rfl, Option.map_eq_none_iff.1 h⟩

theorem joinAll_eq_none_iff {v : List Word} {os : List Operand} :
    joinAll v os = none ↔
      ∃ us o vs l a b r, os = us ++ o :: vs ∧ joinAll v us = some (l ++ [a]) ∧
      o.value true = b :: r ∧ glue a b = none := by
  induction os generalizing v with
  | nil => simp [joinAll]
  | cons o os ih =>
      rw [joinAll_cons]
      constructor
      · intro h
        cases hj : join v (o.value true) with
        | none =>
            obtain ⟨l, a, b, r, rfl, hr, hg⟩ := join_eq_none hj
            exact ⟨[], o, os, l, a, b, r, rfl, rfl, hr, hg⟩
        | some w =>
            rw [hj] at h
            obtain ⟨us, p, vs, l, a, b, r, rfl, hw, hr, hg⟩ := ih.1 h
            refine ⟨o :: us, p, vs, l, a, b, r, rfl, ?_, hr, hg⟩
            rw [joinAll_cons, hj]
            exact hw
      · rintro ⟨us, p, vs, l, a, b, r, heq, hw, hr, hg⟩
        cases us with
        | nil =>
            cases heq
            cases hw
            rw [hr, join_concat, hg]
            rfl
        | cons u us =>
            cases heq
            rw [joinAll_cons] at hw
            obtain ⟨w, hj, hw⟩ := Option.bind_eq_some_iff.1 hw
            rw [hj]
            exact ih.2 ⟨us, p, vs, l, a, b, r, rfl, hw, hr, hg⟩

theorem chainValue_eq_none_iff {c : List Operand} : chainValue c = none ↔ Clashes c := by
  constructor
  · intro h
    match c with
    | [] | [_] => cases h
    | o :: p :: os =>
        obtain ⟨us, q, vs, l, a, b, r, heq, hw, hr, hg⟩ := joinAll_eq_none_iff.1 h
        exact ⟨o, us, q, vs, l, a, b, r, congrArg (o :: ·) heq, hw, hr, hg⟩
  · rintro ⟨o, us, q, vs, l, a, b, r, rfl, hw, hr, hg⟩
    have hnone := joinAll_eq_none_iff.2 ⟨us, q, vs, l, a, b, r, rfl, hw, hr, hg⟩
    cases us <;> exact hnone

theorem chainsValue_eq_none_iff {cs : List (List Operand)} :
    chainsValue cs = none ↔ ∃ c ∈ cs, Clashes c := by
  induction cs with
  | nil => simp [chainsValue_nil]
  | cons c cs ih =>
      simp only [chainsValue_cons, List.mem_cons, exists_eq_or_imp, ← ih]
      rw [← chainValue_eq_none_iff]
      cases chainValue c <;> simp

end Failure

/-- A body that neither starts nor ends with white space does so without it. -/
theorem joined_solid {m : Macro} (hm : m.WellFormed)
    (hapart : pastesApart (Token.solid m.body) = true) : Joined (Token.solid m.body) := by
  refine ⟨hapart, fun t ht => ?_⟩
  by_cases hne : m.body = []
  · rw [hne] at ht
    cases ht
  · have hlast := List.getLast?_eq_some_getLast hne
    obtain ⟨hspace, hpaste⟩ := hm.body_last hlast
    rw [← List.dropLast_concat_getLast hne, Token.solid, List.filter_append,
      List.filter_cons_of_pos (by simp [hspace]), List.filter_nil, List.getLast?_concat] at ht
    cases ht
    exact hpaste

theorem head_solid {m : Macro} (hm : m.WellFormed) :
    (Token.solid m.body).head?.any Token.isPaste = false := by
  cases hbody : m.body with
  | nil => rfl
  | cons t ts =>
      obtain ⟨hspace, hpaste⟩ := hm.body_head (t := t) (by rw [hbody]; rfl)
      simp [Token.solid, hspace, hpaste]

/-- Substitution gives the words of the chains of the body, one after the other. -/
theorem words_substitute {m : Macro} (hm : m.WellFormed)
    (hapart : pastesApart (Token.solid m.body) = true) {args : List Argument}
    (hargs : Bound m args) :
    (substitute m args).toOption.map words = replacementWords m args := by
  have hempty : Holds {} [] [] := ⟨rfl, by simp, fun hb => by cases hb⟩
  have hjoins := (joinsSolid_elements (m := m) hargs.writtenSolid false false m.body).1
  have hassemble := words_assemble hempty hjoins
  rw [foldElements_elements (joined_solid hm hapart), valueAfter, head_solid hm] at hassemble
  have hsubstitute : (substitute m args).toOption.map words =
      (assemble {} (elements m (m.params.zip args) false false m.body)).toOption.map
        fun d => words d.done.reverse := by
    rw [substitute]
    cases assemble {} (elements m (m.params.zip args) false false m.body) <;> rfl
  rw [hsubstitute, hassemble]
  simp [replacementWords]

/-- For a macro that a source leads to, and whatever arguments an invocation gives to it, the
replacement has the words of the chains of the body, one after the other, if no joining operator
stands directly behind another. There is none exactly if two words of a chain do not join. -/
theorem reachable_substitute {T : Table} (hT : T.Reachable) {m : Macro} (hm : m ∈ T.entries)
    (hapart : pastesApart (Token.solid m.body) = true) {args : List Argument}
    (hargs : Bound m args) :
    (substitute m args).toOption.map words = replacementWords m args ∧
      ((∃ e, substitute m args = .error e) ↔
        ∃ c ∈ chains m (m.params.zip args) (Token.solid m.body), Clashes c) := by
  have hwords := words_substitute (hT.wellFormed.macros hm) hapart hargs
  refine ⟨hwords, ?_⟩
  rw [← chainsValue_eq_none_iff, ← replacementWords, ← hwords]
  cases substitute m args <;> simp [Except.toOption]

namespace Sample

/-- A macro with a chain of three operands, a string in a chain and an operand alone. -/
def joining : Text :=
  ascii "#define f(x, y) x##y##1 #x##y y\n"

def one : Token :=
  { kind := .number, text := ascii "1", pos := ⟨22, 1, 23⟩, length := 1 }

/-- An argument of two words. -/
def pair : List Token :=
  [{ kind := .identifier, text := ascii "a" }, Token.space {},
    { kind := .identifier, text := ascii "b" }]

/-- What stands between the parentheses of an invocation. -/
def given : List Token :=
  pair ++ [{ kind := .punctuator, text := ascii "," }, { kind := .punctuator, text := ascii ")" }]

/-- The chains of the body for the two arguments, of which the second is empty. -/
def chained : List (List Operand) :=
  [[.argument ⟨pair, pair⟩, .argument ⟨[], []⟩, .plain one],
    [.string ⟨pair, pair⟩, .argument ⟨[], []⟩], [.argument ⟨[], []⟩]]

end Sample

/-- The empty argument is passed over in the middle of a chain and at its end. -/
theorem reachable_substitute_joining :
    ∃ (T : Table) (m : Macro) (args : List Argument), T.Reachable ∧ m ∈ T.entries ∧
      pastesApart (Token.solid m.body) = true ∧ Bound m args ∧
      (substitute m args).toOption.map words =
        some [(.identifier, ascii "a"), (.identifier, ascii "b1"), (.string, ascii "\"a b\"")] := by
  have hok {α : Type} {x : Except Error α} {a : α} (h : x.toOption = some a) : x = .ok a := by
    cases x with
    | error e => cases h
    | ok b => exact congrArg Except.ok (Option.some.inj h)
  have hcheck : (({} : Preprocessor).runWithin 9 Sample.joining).any (fun r =>
      r.2.2.entries.any fun m => m.functionLike ∧ pastesApart (Token.solid m.body) ∧
        (Arguments.assign m Sample.one [Sample.pair, []]).toOption = some [Sample.pair, []] ∧
        chains m (m.params.zip [⟨Sample.pair, Sample.pair⟩, ⟨[], []⟩])
          (Token.solid m.body) =
          Sample.chained) = true := by
    decide +kernel
  have hscan : Source.content (Lexer.ofText (ascii "b1")) =
      ([{ kind := .identifier, text := ascii "b1", pos := .start, length := 2 }], .eof) :=
    Source.content_of_runWithin (n := 3) (by decide +kernel)
  have hglue : glue (.identifier, ascii "b") (.number, ascii "1") =
      some (.identifier, ascii "b1") := by
    rw [glue, show ascii "b" ++ ascii "1" = ascii "b1" by decide, tokenize_eq, hscan]
    rfl
  have hcollect : (Arguments.collect Sample.one 0 Sample.given).1.toOption =
      some [Sample.pair, []] := by
    decide +kernel
  have hwithin : (Expansion.argumentsWithin (Expansion.expandWithin {} false 9 0 [])
      [Sample.pair, []]).bind Except.toOption =
        some [⟨Sample.pair, Sample.pair⟩, ⟨[], []⟩] := by
    decide +kernel
  obtain ⟨as, has, hpair⟩ := Option.bind_eq_some_iff.1 hwithin
  have hexpand : Expansion.expandArguments (Expansion.expandAt {} false 0 [])
      [Sample.pair, []] = .ok [⟨Sample.pair, Sample.pair⟩, ⟨[], []⟩] :=
    (Expansion.expandArguments_of_within Expansion.expandAt_of_within has).trans (hok hpair)
  obtain ⟨⟨ts, e, T⟩, hr, hT⟩ := (Option.any_eq_true _ _).1 hcheck
  obtain ⟨m, hm, hm'⟩ := List.any_eq_true.1 hT
  obtain ⟨hf, hapart, hassign, hchains⟩ := of_decide_eq_true hm'
  obtain ⟨events, hrun⟩ := Preprocessor.run_of_runWithin hr []
  have hreach : T.Reachable := by
    have hend := Table.Reachable.run (p := {}) [] Sample.joining .empty
    rwa [hrun] at hend
  have hbound : Bound m [⟨Sample.pair, Sample.pair⟩, ⟨[], []⟩] :=
    .function hf (Prod.ext (hok hcollect) rfl) (hok hassign) hexpand
  refine ⟨T, m, _, hreach, hm, hapart, hbound, ?_⟩
  rw [(reachable_substitute hreach hm hapart hbound).1, replacementWords, hchains]
  have hpairValue : (Operand.argument ⟨Sample.pair, Sample.pair⟩).value true =
      [(.identifier, ascii "a")] ++ [(.identifier, ascii "b")] := by
    decide
  have honeValue : (Operand.plain Sample.one).value true = [(.number, ascii "1")] := by
    decide
  have hchain : chainValue [.argument ⟨Sample.pair, Sample.pair⟩, .argument ⟨[], []⟩,
      .plain Sample.one] = some [(.identifier, ascii "a"), (.identifier, ascii "b1")] := by
    have hempty : (Operand.argument ⟨[], []⟩).value true = [] := rfl
    rw [chainValue, joinAll_cons, hempty, join_nil_right, Option.bind_some, joinAll_cons,
      hpairValue, honeValue, join_concat, hglue]
    · rfl
    · exact fun h => nomatch h
  rw [Sample.chained, chainsValue_cons, hchain]
  decide +kernel

end Placemarker
end CPreprocessor

import CPreprocessor.Macro.Substitution
import CPreprocessor.Proofs.Macro.WellFormed

/-!
Substitution by positions. The body of a macro, its arguments, the elements of the body and the
tokens put out so far are taken by their indices, and there is no result once an index is out of
range. For a macro that is well formed, with an argument for each parameter, this is
substitution: every index is in range.
-/

namespace CPreprocessor
namespace Indexed

open Substitution (Element Draft stringOf beforePaste argument? stringized? elements)

/-- The first position from `i` on that holds no white space. -/
def nextSolid (ts : List Token) (i : Nat) : Nat :=
  i + ((ts.drop i).takeWhile Token.isSpace).length

/-- The last position before `i` that holds no white space. -/
def prevSolid? (ts : List Token) : Nat → Option Nat
  | 0 => none
  | i + 1 => if ts[i]?.any Token.isSpace then prevSolid? ts i else some i

/-- Whether the joining operator comes next after the position `i`, white space aside. -/
def pasteAfter (ts : List Token) (i : Nat) : Option Bool :=
  let n := nextSolid ts (i + 1)
  if n < ts.length then ts[n]?.map Token.isPaste else some false

/-- Whether the joining operator comes last before the position `i`, white space aside. -/
def pasteBefore (ts : List Token) (i : Nat) : Option Bool :=
  match prevSolid? ts i with
  | none => some false
  | some p => ts[p]?.map Token.isPaste

/-- The argument of the parameter with a given name. -/
def argumentNamed (m : Macro) (args : List Argument) (name : Text) : Option Argument :=
  (m.params.idxOf? name).bind fun k => args[k]?

/-- The element that the token `t` at the position `i` stands for, if it is no operator. -/
def plainElement (m : Macro) (args : List Argument) (space : Bool) (i : Nat) (t : Token) :
    Option Element :=
  if t.kind = .identifier ∧ t.text ∈ m.params then
    match argumentNamed m args t.text, pasteBefore m.body i, pasteAfter m.body i with
    | some a, some before, some after =>
      some (.tokens space (if before || after then a.written else a.expanded))
    | _, _, _ => none
  else some (.tokens space [t])

/-- The elements of the body of `m` from the position `i` on. -/
def elementsFrom (m : Macro) (args : List Argument) (i : Nat) (space : Bool) :
    Option (List Element) :=
  if h : i < m.body.length then
    let t := m.body[i]
    if t.isSpace then elementsFrom m args (i + 1) true
    else if t.isPaste then (elementsFrom m args (i + 1) false).map (.paste :: ·)
    else if m.functionLike && t.isHash then
      let j := nextSolid m.body (i + 1)
      match m.body[j]?.bind fun p => argumentNamed m args p.text with
      | none => none
      | some a =>
        (elementsFrom m args (j + 1) false).map (.tokens space [stringOf t.pos a.written] :: ·)
    else match plainElement m args space i t with
      | none => none
      | some el => (elementsFrom m args (i + 1) false).map (el :: ·)
  else some []
termination_by m.body.length - i
decreasing_by
  · omega
  · omega
  · simp only [nextSolid]
    omega
  · omega

/-- Joins an element to the last one. -/
def join (d : Draft) (right : List Token) : Option (Except Error Draft) :=
  if d.blank then some (.ok (d.addAll right))
  else match right with
    | [] => some (.ok d)
    | t :: ts =>
      match d.done.reverse[d.done.length - 1]? with
      | none => none
      | some last => some do
        let joined ← Substitution.paste last t
        .ok { ts.foldl Draft.add { d with done := joined :: d.done.tail, space := false } with
          blank := false }

/-- Puts the elements from the position `i` on together. -/
def assembleFrom (els : List Element) (d : Draft) (i : Nat) : Option (Except Error Draft) :=
  if h : i < els.length then
    match els[i] with
    | .tokens space ts => assembleFrom els ({ d with space := d.space || space }.addAll ts) (i + 1)
    | .paste =>
      match els[i + 1]?.bind fun el => join d el.toTokens with
      | none => none
      | some (.error e) => some (.error e)
      | some (.ok d) => assembleFrom els d (i + 2)
  else some (.ok d)
termination_by els.length - i

/-- The replacement of an invocation of `m`. -/
def substitute (m : Macro) (args : List Argument) : Option (Except Error (List Token)) :=
  (elementsFrom m args 0 false).bind fun els =>
    (assembleFrom els {} 0).map fun r => r.map fun d => d.done.reverse

section Positions

variable {ts us : List Token} {i : Nat} {t : Token}

theorem drop_nextSolid (ts : List Token) (i : Nat) :
    ts.drop (nextSolid ts i) = (ts.drop i).dropWhile Token.isSpace := by
  have h : (ts.drop i).takeWhile Token.isSpace ++ (ts.drop i).dropWhile Token.isSpace =
      ts.drop i := List.takeWhile_append_dropWhile
  rw [nextSolid, ← List.drop_drop]
  exact (congrArg (List.drop _) h.symm).trans List.drop_left

theorem getElem?_of_drop (h : ts.drop i = t :: us) : ts[i]? = some t := by
  rw [← List.head?_drop, h]
  rfl

theorem lt_of_drop (h : ts.drop i = t :: us) : i < ts.length := by
  have := getElem?_of_drop h
  exact (List.getElem?_eq_some_iff.1 this).1

theorem drop_succ (h : ts.drop i = t :: us) : ts.drop (i + 1) = us := by
  rw [← List.drop_drop, h]
  rfl

theorem take_succ (h : ts.drop i = t :: us) : ts.take (i + 1) = ts.take i ++ [t] := by
  rw [List.take_add_one, getElem?_of_drop h]
  rfl

theorem pasteAfter_eq (h : ts.drop i = t :: us) : pasteAfter ts i = some (beforePaste us) := by
  have hd := drop_nextSolid ts (i + 1)
  rw [drop_succ h] at hd
  simp only [pasteAfter, beforePaste, ← hd, List.head?_drop]
  split
  · rename_i hlt
    rw [List.getElem?_eq_getElem hlt]
    rfl
  · rename_i hle
    rw [List.getElem?_eq_none (Nat.le_of_not_lt hle)]
    rfl

/-- Whether the last token, white space aside, is the joining operator. -/
def endsInPaste (ts : List Token) : Bool :=
  (ts.reverse.dropWhile Token.isSpace).head?.any Token.isPaste

theorem endsInPaste_append_space (ts : List Token) (h : t.isSpace = true) :
    endsInPaste (ts ++ [t]) = endsInPaste ts := by
  simp [endsInPaste, h]

theorem endsInPaste_append (ts : List Token) (h : t.isSpace = false) :
    endsInPaste (ts ++ [t]) = t.isPaste := by
  simp [endsInPaste, h]

theorem pasteBefore_eq (h : i ≤ ts.length) :
    pasteBefore ts i = some (endsInPaste (ts.take i)) := by
  induction i with
  | zero => rfl
  | succ i ih =>
      have hd : ts.drop i = ts[i] :: ts.drop (i + 1) := List.drop_eq_getElem_cons h
      rw [take_succ hd]
      cases hs : ts[i].isSpace with
      | true =>
          rw [endsInPaste_append_space _ hs, ← ih (Nat.le_of_succ_le h), pasteBefore, prevSolid?,
            List.getElem?_eq_getElem h, Option.any_some, hs, if_pos rfl]
          rfl
      | false =>
          simp only [endsInPaste_append _ hs, pasteBefore, prevSolid?, List.getElem?_eq_getElem h,
            Option.any_some, hs, Bool.false_eq_true, if_false, Option.map_some]

end Positions
section Elements

variable {m : Macro} {args : List Argument}

theorem argumentNamed_eq (m : Macro) (args : List Argument) (name : Text) :
    argumentNamed m args name = (m.params.zip args).lookup name := by
  rw [argumentNamed]
  generalize m.params = ps
  induction ps generalizing args with
  | nil => rfl
  | cons p ps ih =>
      rw [List.idxOf?_cons]
      cases args with
      | nil => cases p == name <;> simp
      | cons a args =>
          rw [List.zip_cons_cons, List.lookup_cons, Bool.beq_comm]
          cases name == p with
          | true => rfl
          | false =>
              rw [← ih args]
              cases ps.idxOf? name <;> rfl

theorem exists_argumentNamed (ha : args.length = m.params.length) {name : Text}
    (hn : name ∈ m.params) : ∃ a, argumentNamed m args name = some a := by
  obtain ⟨k, hk⟩ := Option.isSome_iff_exists.1 (List.isSome_idxOf?.2 hn)
  obtain ⟨hlt, -⟩ := List.findIdx?_eq_some_iff_getElem.1 hk
  refine ⟨args[k], ?_⟩
  rw [argumentNamed, hk, Option.bind_some, List.getElem?_eq_getElem]

theorem elements_space {bs : Substitution.Bindings} {space pasted : Bool} {t : Token}
    (ht : t.isSpace = true) (ts : List Token) :
    elements m bs space pasted (t :: ts) = elements m bs true pasted ts := by
  rw [elements, if_pos ht]

theorem elements_paste {bs : Substitution.Bindings} {space pasted : Bool} {t : Token}
    (ht : t.isSpace = false) (hp : t.isPaste = true) (ts : List Token) :
    elements m bs space pasted (t :: ts) = .paste :: elements m bs false true ts := by
  rw [elements, if_neg (by simp [ht]), if_pos hp]

theorem elements_string {bs : Substitution.Bindings} {space pasted : Bool} {t : Token}
    (ht : t.isSpace = false) (hp : t.isPaste = false) {ts rest : List Token} {a : Argument}
    (hs : stringized? m bs t ts = some (a, rest)) :
    elements m bs space pasted (t :: ts) =
      .tokens space [stringOf t.pos a.written] :: elements m bs false false rest := by
  rw [elements, if_neg (by simp [ht]), if_neg (by simp [hp])]
  split <;> simp_all

theorem elements_plain {bs : Substitution.Bindings} {space pasted : Bool} {t : Token}
    (ht : t.isSpace = false) (hp : t.isPaste = false) {ts : List Token}
    (hs : stringized? m bs t ts = none) :
    elements m bs space pasted (t :: ts) =
      .tokens space (match argument? bs t with
        | some a => if pasted || beforePaste ts then a.written else a.expanded
        | none => [t]) :: elements m bs false false ts := by
  rw [elements, if_neg (by simp [ht]), if_neg (by simp [hp])]
  split
  · simp_all
  · rfl

theorem plainElement_eq (ha : args.length = m.params.length) {i : Nat} {t : Token}
    {ts : List Token} (hd : m.body.drop i = t :: ts) (space : Bool) :
    plainElement m args space i t =
      some (.tokens space (match argument? (m.params.zip args) t with
        | some a => if endsInPaste (m.body.take i) || beforePaste ts then a.written else a.expanded
        | none => [t])) := by
  rw [plainElement, argument?]
  by_cases hk : t.kind = .identifier
  · rw [if_pos hk, ← argumentNamed_eq]
    by_cases hn : t.text ∈ m.params
    · obtain ⟨a, harg⟩ := exists_argumentNamed ha hn
      rw [if_pos ⟨hk, hn⟩, harg, pasteAfter_eq hd,
        pasteBefore_eq (Nat.le_of_lt (lt_of_drop hd))]
    · have hnone : argumentNamed m args t.text = none := by
        rw [argumentNamed, List.idxOf?_eq_none_iff.2 hn]
        rfl
      rw [if_neg (fun h => hn h.2), hnone]
  · rw [if_neg hk, if_neg (fun h => hk h.1)]

/-- Behind a `#` the positions lead to a parameter and its argument. -/
theorem stringized?_of_hash (hm : m.WellFormed) (ha : args.length = m.params.length) {i : Nat}
    {t : Token} {ts : List Token} (hd : m.body.drop i = t :: ts)
    (hh : (m.functionLike && t.isHash) = true) :
    ∃ p rest a, m.body.drop (nextSolid m.body (i + 1)) = p :: rest ∧ p.kind = .identifier ∧
      argumentNamed m args p.text = some a ∧
      stringized? m (m.params.zip args) t ts = some (a, rest) := by
  obtain ⟨hf, hhash⟩ := Bool.and_eq_true_iff.1 hh
  have hbody : m.body = m.body.take i ++ t :: ts := by rw [← hd, List.take_append_drop]
  obtain ⟨p, rest, hp, hk, hn⟩ := hm.body_hash hf hbody hhash
  obtain ⟨a, harg⟩ := exists_argumentNamed ha hn
  refine ⟨p, rest, a, ?_, hk, harg, ?_⟩
  · rw [drop_nextSolid, drop_succ hd, hp]
  · rw [stringized?, if_pos hh, hp]
    simp only [argument?, if_pos hk, ← argumentNamed_eq, harg, Option.map_some]

theorem stringized?_of_not_hash {bs : Substitution.Bindings} {t : Token}
    (hh : ¬(m.functionLike && t.isHash) = true) (ts : List Token) :
    stringized? m bs t ts = none := by
  rw [stringized?, if_neg hh]

theorem suffix_of_stringized? {bs : Substitution.Bindings} {t : Token} {ts rest : List Token}
    {a : Argument} (h : stringized? m bs t ts = some (a, rest)) : rest <:+ ts := by
  unfold stringized? at h
  split at h
  · split at h
    · rename_i p us hp
      obtain ⟨b, -, heq⟩ := Option.map_eq_some_iff.1 h
      cases heq
      exact (List.suffix_cons p rest).trans (hp ▸ List.dropWhile_suffix _)
    · cases h
  · cases h

/-- The body taken by positions has the elements of the body. -/
theorem elementsFrom_eq (hm : m.WellFormed) (ha : args.length = m.params.length) {i : Nat}
    (hi : i ≤ m.body.length) (space : Bool) :
    elementsFrom m args i space = some (elements m (m.params.zip args) space
      (endsInPaste (m.body.take i)) (m.body.drop i)) := by
  fun_induction elementsFrom m args i space with
  | case1 i space h t ht ih =>
      have hd : m.body.drop i = t :: m.body.drop (i + 1) := List.drop_eq_getElem_cons h
      rw [ih h, take_succ hd, endsInPaste_append_space _ ht, hd, elements_space ht]
  | case2 i space h t ht hp ih =>
      have hd : m.body.drop i = t :: m.body.drop (i + 1) := List.drop_eq_getElem_cons h
      have ht : t.isSpace = false := Bool.eq_false_iff.2 ht
      rw [ih h, take_succ hd, endsInPaste_append _ ht, hp, hd, elements_paste ht hp]
      rfl
  | case3 i space h t ht hp hh j harg =>
      have hd : m.body.drop i = t :: m.body.drop (i + 1) := List.drop_eq_getElem_cons h
      obtain ⟨p, rest, a, hj, -, ha, -⟩ := stringized?_of_hash hm ha hd hh
      rw [getElem?_of_drop hj, Option.bind_some, ha] at harg
      cases harg
  | case4 i space h t ht hp hh j a harg ih =>
      have hd : m.body.drop i = t :: m.body.drop (i + 1) := List.drop_eq_getElem_cons h
      have ht : t.isSpace = false := Bool.eq_false_iff.2 ht
      obtain ⟨p, rest, b, hj, hk, hb, hs⟩ := stringized?_of_hash hm ha hd hh
      rw [getElem?_of_drop hj, Option.bind_some, hb] at harg
      cases harg
      have hspace : p.isSpace = false := by simp [Token.isSpace, hk]
      have hpaste : p.isPaste = false := by simp [Token.isPaste, Token.isPunct, hk]
      rw [ih (lt_of_drop hj), take_succ hj, endsInPaste_append _ hspace, hpaste, drop_succ hj, hd,
        elements_string ht (Bool.eq_false_iff.2 hp) hs]
      rfl
  | case5 i space h t ht hp hh hel =>
      have hd : m.body.drop i = t :: m.body.drop (i + 1) := List.drop_eq_getElem_cons h
      rw [plainElement_eq ha hd] at hel
      cases hel
  | case6 i space h t ht hp hh el hel ih =>
      have hd : m.body.drop i = t :: m.body.drop (i + 1) := List.drop_eq_getElem_cons h
      have ht : t.isSpace = false := Bool.eq_false_iff.2 ht
      have hp : t.isPaste = false := Bool.eq_false_iff.2 hp
      rw [plainElement_eq ha hd] at hel
      cases hel
      rw [ih h, take_succ hd, endsInPaste_append _ ht, hp, hd,
        elements_plain ht hp (stringized?_of_not_hash hh _)]
      rfl
  | case7 i space h =>
      rw [List.drop_of_length_le (Nat.le_of_not_lt h), elements]

/-- A body that ends in neither white space nor the joining operator has tokens as its last
element. -/
theorem exists_getLast?_elements {bs : Substitution.Bindings} {space pasted : Bool}
    {body : List Token} (hne : body ≠ [])
    (hlast : ∀ t, body.getLast? = some t → t.isSpace = false ∧ t.isPaste = false) :
    ∃ s ts, (elements m bs space pasted body).getLast? = some (.tokens s ts) := by
  -- The last token is the last one of every part of the body that is not empty.
  have hsuffix {us vs : List Token} (hv : vs <:+ us) (hne : vs ≠ [])
      (hlast : ∀ t, us.getLast? = some t → t.isSpace = false ∧ t.isPaste = false) :
      ∀ t, vs.getLast? = some t → t.isSpace = false ∧ t.isPaste = false := by
    intro t ht
    obtain ⟨ws, rfl⟩ := hv
    refine hlast t ?_
    rw [List.getLast?_append, ht]
    rfl
  have hcons {el : Element} {els : List Element}
      (h : ∃ s ts, els.getLast? = some (.tokens s ts)) :
      ∃ s ts, (el :: els).getLast? = some (.tokens s ts) := by
    obtain ⟨s, ts, h⟩ := h
    exact ⟨s, ts, by rw [List.getLast?_cons, h]; rfl⟩
  fun_induction elements m bs space pasted body with
  | case1 => exact absurd rfl hne
  | case2 space pasted t ts ht ih =>
      cases ts with
      | nil => simp [(hlast t rfl).1] at ht
      | cons u ts => exact ih (by simp) (hsuffix (List.suffix_cons t _) (by simp) hlast)
  | case3 space pasted t ts ht hp ih =>
      cases ts with
      | nil => simp [(hlast t rfl).2] at hp
      | cons u ts => exact hcons (ih (by simp) (hsuffix (List.suffix_cons t _) (by simp) hlast))
  | case4 space pasted t ts ht hp a rest hs ih =>
      cases rest with
      | nil => exact ⟨space, _, by rw [elements]; rfl⟩
      | cons u rest =>
          have hrest : u :: rest <:+ t :: ts :=
            (suffix_of_stringized? hs).trans (List.suffix_cons t ts)
          exact hcons (ih (by simp) (hsuffix hrest (by simp) hlast))
  | case5 space pasted t ts ht hp hs ts' ih =>
      cases ts with
      | nil => exact ⟨space, _, by rw [elements]; rfl⟩
      | cons u ts => exact hcons (ih (by simp) (hsuffix (List.suffix_cons t _) (by simp) hlast))

end Elements

section Assembly

/-- A draft whose last element came out with tokens has tokens. -/
def Sound (d : Draft) : Prop :=
  d.blank = false → d.done ≠ []

theorem done_foldl_add {d : Draft} (h : d.done ≠ []) (ts : List Token) :
    (ts.foldl Draft.add d).done ≠ [] := by
  induction ts generalizing d with
  | nil => exact h
  | cons t ts ih =>
      refine ih ?_
      unfold Draft.add
      split
      · exact h
      · simp

theorem Sound.foldl_add {d : Draft} (h : Sound d) (ts : List Token) :
    Sound (ts.foldl Draft.add d) := by
  induction ts generalizing d with
  | nil => exact h
  | cons t ts ih =>
      refine ih ?_
      unfold Draft.add
      split
      · exact h
      · exact fun _ => by simp

theorem sound_addAll (d : Draft) (ts : List Token) : Sound (d.addAll ts) := by
  have hblank : Sound { d with blank := true } := fun h => by cases h
  exact hblank.foldl_add ts

theorem Sound.of_join {d d' : Draft} (h : Sound d) {right : List Token}
    (hj : d.join right = .ok d') : Sound d' := by
  unfold Draft.join at hj
  split at hj
  · cases hj
    exact sound_addAll d right
  · split at hj
    · obtain ⟨joined, -, hj⟩ := except_bind_eq_ok hj
      cases hj
      exact fun _ => done_foldl_add (List.cons_ne_nil _ _) _
    · cases hj
      exact h

/-- What an element is joined to is there. -/
theorem join_eq {d : Draft} (h : Sound d) (right : List Token) :
    join d right = some (d.join right) := by
  unfold join Draft.join
  split
  · rfl
  · rename_i hb
    have hdone := h (Bool.eq_false_iff.2 hb)
    cases right with
    | nil => rfl
    | cons t ts =>
        obtain ⟨last, done, hd⟩ := List.exists_cons_of_ne_nil hdone
        have hlast : d.done.reverse[d.done.length - 1]? = some last := by simp [hd]
        rw [hlast, hd]
        rfl

/-- Something comes after the joining operator. -/
theorem lt_of_paste {els : List Element} (hlast : els.getLast? ≠ some .paste) {i : Nat}
    (hlt : i < els.length) (hel : els[i] = .paste) : i + 1 < els.length := by
  refine Nat.lt_of_le_of_ne hlt fun heq => hlast ?_
  rw [List.getLast?_eq_getElem?, ← heq, Nat.add_sub_cancel, List.getElem?_eq_getElem hlt, hel]

/-- Elements taken by positions are put together as they are in order. -/
theorem assembleFrom_eq {els : List Element} (hlast : els.getLast? ≠ some .paste) {d : Draft}
    (h : Sound d) {i : Nat} (hi : i ≤ els.length) :
    assembleFrom els d i = some (Substitution.assemble d (els.drop i)) := by
  fun_induction assembleFrom els d i with
  | case1 d i hlt space ts hel ih =>
      rw [List.drop_eq_getElem_cons hlt, hel, Substitution.assemble]
      exact ih (sound_addAll _ ts) hlt
  | case2 d i hlt hel hn =>
      rw [List.getElem?_eq_getElem (lt_of_paste hlast hlt hel), Option.bind_some, join_eq h] at hn
      cases hn
  | case3 d i hlt hel e hj =>
      have hnext := lt_of_paste hlast hlt hel
      rw [List.getElem?_eq_getElem hnext, Option.bind_some, join_eq h] at hj
      rw [List.drop_eq_getElem_cons hlt, hel, List.drop_eq_getElem_cons hnext,
        Substitution.assemble, Option.some.inj hj]
      rfl
  | case4 d i hlt hel d' hj ih =>
      have hnext := lt_of_paste hlast hlt hel
      rw [List.getElem?_eq_getElem hnext, Option.bind_some, join_eq h] at hj
      have hj := Option.some.inj hj
      rw [List.drop_eq_getElem_cons hlt, hel, List.drop_eq_getElem_cons hnext,
        Substitution.assemble, hj]
      exact ih (h.of_join hj) hnext
  | case5 d i hge =>
      rw [List.drop_of_length_le (Nat.le_of_not_lt hge), Substitution.assemble]

end Assembly

/-- Substitution by positions is substitution: no index is out of range. -/
theorem substitute_eq {m : Macro} (hm : m.WellFormed) {args : List Argument}
    (ha : args.length = m.params.length) :
    substitute m args = some (Substitution.substitute m args) := by
  have hlast : (elements m (m.params.zip args) false false m.body).getLast? ≠ some .paste := by
    by_cases hne : m.body = []
    · rw [hne, elements]
      simp
    · obtain ⟨s, ts, h⟩ : ∃ s ts,
        (elements m (m.params.zip args) false false m.body).getLast? =
          some (.tokens s ts) := exists_getLast?_elements hne fun t ht => hm.body_last ht
      rw [h]
      simp
  have hempty : Sound {} := by
    intro h
    cases h
  have hsubstitute : substitute m args =
      (assembleFrom (elements m (m.params.zip args) false false m.body) {} 0).map fun r =>
        r.map fun d => d.done.reverse := by
    rw [substitute, elementsFrom_eq hm ha (Nat.zero_le _)]
    rfl
  rw [hsubstitute, assembleFrom_eq hlast hempty (Nat.zero_le _), List.drop_zero,
    Substitution.substitute]
  cases Substitution.assemble {} (elements m (m.params.zip args) false false m.body) <;> rfl

/-- Behind a joining operator that ends the body there is no element to take. -/
example : substitute { name := ascii "m", body := [{ kind := .punctuator, text := ascii "##" }] }
    [] = none := by
  decide +kernel

end Indexed
end CPreprocessor

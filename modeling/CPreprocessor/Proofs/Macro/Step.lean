import CPreprocessor.Proofs.Macro.Follow

/-!
What one step of expansion does to a token list. A function-like name looks past the white
space behind it for its arguments and reads through their closing parenthesis; every other
step reads one token, or with `defined` its operand. The errors of a step are those of an
invocation.
-/

namespace CPreprocessor

namespace TokenList

theorem takeSpace_eq (ts : List Token) :
    TokenStream.takeSpace true ts =
      (⟨ts.takeWhile Token.isSpace, none⟩, ts.dropWhile Token.isSpace) := by
  induction ts with
  | nil => rw [TokenStream.takeSpace]; rfl
  | cons t ts ih =>
      rw [TokenStream.takeSpace]
      simp only [TokenStream.next, next]
      by_cases ht : t.isSpace = true
      · rw [if_pos (by simp [ht]), ih, List.takeWhile_cons_of_pos ht,
          List.dropWhile_cons_of_pos ht]
        rfl
      · rw [if_neg (by simp [ht]), List.takeWhile_cons_of_neg ht, List.dropWhile_cons_of_neg ht]
        rfl

end TokenList

/-- Whether a token is the name of a function-like macro. -/
def Table.isFunctionName (T : Table) (t : Token) : Bool :=
  t.kind == .identifier && (T.lookup t.text).any Macro.functionLike

theorem Table.name_of_lookup {T : Table} {name : Text} {m : Macro} (h : T.lookup name = some m) :
    m.name = name := by
  have := List.find?_some h
  simpa using this

theorem Table.mem_of_lookup {T : Table} {name : Text} {m : Macro} (h : T.lookup name = some m) :
    m ∈ T.entries :=
  List.mem_of_find?_eq_some h

namespace Arguments

/-- Arguments that are closed in a list are read off its front, and so they are if more tokens
come behind. -/
theorem collect_append {name : Token} {depth : Nat} {a rest : List Token}
    {raw : List (List Token)} (h : collect name depth a = (.ok raw, rest)) :
    rest <:+ a ∧ ∀ b, collect name depth (a ++ b) = (.ok raw, rest ++ b) := by
  induction a generalizing depth raw with
  | nil =>
      rw [collect_of_stop rfl] at h
      cases h
  | cons t ts ih =>
      have hmap {d : Nat} {f : List (List Token) → List (List Token)}
          (h : ((collect name d ts).1.map f, (collect name d ts).2) = (.ok raw, rest)) :
          rest <:+ t :: ts ∧ ∀ b, ((collect name d (ts ++ b)).1.map f,
            (collect name d (ts ++ b)).2) = (.ok raw, rest ++ b) := by
        obtain ⟨hr, rfl⟩ := Prod.mk.inj h
        obtain ⟨as, has, rfl⟩ := except_map_eq_ok hr
        obtain ⟨hsuf, hb⟩ := ih (Prod.ext has rfl)
        refine ⟨hsuf.trans (List.suffix_cons t ts), fun b => ?_⟩
        rw [hb]
        rfl
      rw [collect_of_token (s := ts) rfl] at h
      simp only [List.cons_append]
      split at h
      · rename_i hp
        simp only [collect_of_token (r := t :: (ts ++ _)) rfl, if_pos hp]
        exact hmap h
      · rename_i hp
        split at h
        · rename_i hq
          split at h
          · rename_i hd
            cases h
            refine ⟨List.suffix_cons t rest, fun b => ?_⟩
            rw [collect_of_token (s := rest ++ b) rfl, if_neg hp, if_pos hq, if_pos hd]
          · rename_i hd
            simp only [collect_of_token (r := t :: (ts ++ _)) rfl, if_neg hp, if_pos hq, if_neg hd]
            exact hmap h
        · rename_i hq
          split at h
          · rename_i hc
            simp only [collect_of_token (r := t :: (ts ++ _)) rfl, if_neg hp, if_neg hq, if_pos hc]
            exact hmap h
          · rename_i hc
            simp only [collect_of_token (r := t :: (ts ++ _)) rfl, if_neg hp, if_neg hq, if_neg hc]
            exact hmap h

/-- There is an argument for each parameter. -/
theorem length_of_assign {m : Macro} {name : Token} {raw args : List (List Token)}
    (h : assign m name raw = .ok args) : args.length = m.params.length := by
  simp only [assign] at h
  split at h
  · rename_i hn
    split at h
    · cases h
      exact hn.symm
    · cases h
  · split at h
    · split at h
      · cases h
      · cases h
        simp only [List.length_append, List.length_take, List.length_singleton]
        omega
    · split at h
      · cases h
      · split at h
        · cases h
        · cases h
          omega

end Arguments

namespace Expansion

/-- The invocation of `m` by the name `t` whose arguments start a list. -/
def argumentsStep (m : Macro) (t : Token) (ts : List Token) : Step (List Token) :=
  match Arguments.collect t 0 ts with
  | (.error e, rest) => .stop (.fault e) rest
  | (.ok raw, rest) =>
    match Arguments.assign m t (raw.map Token.trim) with
    | .error e => .stop (.fault e) rest
    | .ok args => .call m args rest

/-- A function-like name is invoked if an opening parenthesis comes next, white space aside. -/
theorem invocation_eq (m : Macro) (t : Token) (ts : List Token) :
    invocation m t ts =
      match ts.dropWhile Token.isSpace with
      | [] => .emit t [] ts
      | p :: rest => if p.isPunct (ascii "(") then argumentsStep m t rest else .emit t [] ts := by
  have hback : ts.takeWhile Token.isSpace ++ ts.dropWhile Token.isSpace = ts :=
    List.takeWhile_append_dropWhile
  rw [invocation, TokenList.takeSpace_eq]
  cases hd : ts.dropWhile Token.isSpace with
  | nil =>
      rw [hd] at hback
      exact congrArg (Step.emit t []) hback
  | cons p rest =>
      rw [hd] at hback
      simp only [TokenStream.takePunct, TokenStream.takeIf, TokenStream.next, TokenList.next]
      by_cases hp : p.isPunct (ascii "(") = true
      · rw [if_pos hp, if_pos hp, argumentsStep]
        simp only
        obtain ⟨e | raw, rest'⟩ := Arguments.collect t 0 rest
        · rfl
        · cases Arguments.assign m t (raw.map Token.trim) <;> rfl
      · rw [if_neg hp, if_neg hp]
        exact congrArg (Step.emit t []) hback

/-- What a step does to a list that starts with `t`, and on what condition. -/
inductive StepCase (T : Table) (keep : Bool) (depth : Nat) (ctx : Context) (t : Token)
    (ts : List Token) : Step (List Token) → Prop where
  /-- No name, no macro, or one that is being expanded already. -/
  | pass : (∀ us, step (fun _ => T) keep depth ctx (t :: us) = .emit t [] us) →
      StepCase T keep depth ctx t ts (.emit t [] ts)
  | variadic : t.kind = .identifier → t.text = Vocabulary.variadicName →
      StepCase T keep depth ctx t ts
        (.stop (.fault { fault := .variadicNameInText, pos := t.pos }) ts)
  | operand {op rest} : keep = true → t.text = Vocabulary.definedName →
      afterDefined ts = (⟨op, none⟩, rest) → StepCase T keep depth ctx t ts (.emit t op rest)
  | tooDeep {m} : T.lookup t.text = some m → t.text ∉ ctx → depthLimit ≤ depth →
      StepCase T keep depth ctx t ts
        (.stop (.fault { fault := .nestedTooDeeply depthLimit t.text, pos := t.pos }) ts)
  | function {m} : T.lookup t.text = some m → t.text ∉ ctx → depth < depthLimit →
      T.isFunctionName t = true →
      (∀ us, step (fun _ => T) keep depth ctx (t :: us) = invocation m t us) →
      StepCase T keep depth ctx t ts (invocation m t ts)
  | object {m} : T.lookup t.text = some m → t.text ∉ ctx → depth < depthLimit →
      m.functionLike = false →
        (∀ us, step (fun _ => T) keep depth ctx (t :: us) = .call m [] us) →
      StepCase T keep depth ctx t ts (.call m [] ts)

theorem afterDefined_error (ts : List Token) : (afterDefined ts).1.error = none := by
  induction ts with
  | nil =>
      rw [afterDefined_of_stop rfl]
      rfl
  | cons t ts ih =>
      rw [afterDefined_of_token (s := ts) rfl]
      split
      · rfl
      · split
        · exact ih
        · rfl

/-- What is read behind `defined` comes off the front of the list. -/
theorem afterDefined_append (ts : List Token) :
    (afterDefined ts).1.tokens ++ (afterDefined ts).2 = ts := by
  induction ts with
  | nil => rw [afterDefined_of_stop rfl]; rfl
  | cons t ts ih =>
      rw [afterDefined_of_token (s := ts) rfl]
      split
      · rfl
      · split
        · exact congrArg (t :: ·) ih
        · rfl

theorem step_cases (T : Table) (keep : Bool) (depth : Nat) (ctx : Context) (t : Token)
    (ts : List Token) :
    StepCase T keep depth ctx t ts (step (fun _ => T) keep depth ctx (t :: ts)) := by
  unfold step
  simp only [TokenStream.next, TokenList.next]
  split
  · rename_i hk
    refine .pass fun us => ?_
    rw [step]
    exact if_pos hk
  · rename_i hk
    split
    · rename_i hv
      exact .variadic (Decidable.not_not.1 hk) hv
    · rename_i hv
      split
      · rename_i hd
        have herr := afterDefined_error ts
        split
        · rename_i ha
          rw [ha] at herr
          cases herr
        · rename_i ha
          exact .operand hd.1 hd.2 ha
      · rename_i hd
        cases hm : T.lookup t.text with
        | none =>
            refine .pass fun us => ?_
            simp only [step, TokenStream.next, TokenList.next, if_neg hk, if_neg hv, if_neg hd, hm]
        | some m =>
            have hstep (us : List Token) : step (fun _ => T) keep depth ctx (t :: us) =
                if ctx.contains t.text then .emit t [] us
                else if depthLimit ≤ depth then
                  .stop (.fault { fault := .nestedTooDeeply depthLimit t.text, pos := t.pos }) us
                else if m.functionLike then invocation m t us
                else .call m [] us := by
              simp only [step, TokenStream.next, TokenList.next, if_neg hk, if_neg hv,
                if_neg hd, hm]
            simp only
            by_cases hc : ctx.contains t.text = true
            · simp only [if_pos hc] at hstep ⊢
              exact .pass hstep
            · simp only [if_neg hc] at hstep ⊢
              have hctx : t.text ∉ ctx := by simpa using hc
              by_cases hl : depthLimit ≤ depth
              · rw [if_pos hl]
                exact .tooDeep hm hctx hl
              · simp only [if_neg hl] at hstep ⊢
                cases hf : m.functionLike with
                | true =>
                    simp only [hf, if_true] at hstep ⊢
                    refine .function hm hctx (Nat.lt_of_not_le hl) ?_ hstep
                    simp [Table.isFunctionName, Decidable.not_not.1 hk, hm, hf]
                | false =>
                    simp only [hf, Bool.false_eq_true, if_false] at hstep ⊢
                    exact .object hm hctx (Nat.lt_of_not_le hl) hf hstep

theorem call_of_invocation {m m' : Macro} {t : Token} {ts rest : List Token}
    {args : List (List Token)} (h : invocation m t ts = .call m' args rest) :
    m' = m ∧ args.length = m.params.length := by
  rw [invocation_eq] at h
  split at h
  · cases h
  · split at h
    · unfold argumentsStep at h
      split at h
      · cases h
      · split at h
        · cases h
        · rename_i ha
          cases h
          exact ⟨rfl, Arguments.length_of_assign ha⟩
    · cases h

/-- A macro that is invoked is in the table and not in the context. It has an argument for each
parameter, or it is object-like and has none. -/
theorem of_step_call {T : Table} {keep : Bool} {depth : Nat} {ctx : Context}
    {ts rest : List Token} {m : Macro} {args : List (List Token)}
    (h : step (fun _ => T) keep depth ctx ts = .call m args rest) :
    m ∈ T.entries ∧ m.name ∉ ctx ∧
      if m.functionLike then args.length = m.params.length else args = [] := by
  cases ts with
  | nil => cases h
  | cons t ts =>
      have hcase := step_cases T keep depth ctx t ts
      rw [h] at hcase
      generalize hst : Step.call m args rest = st at hcase
      cases hcase with
      | pass | operand | variadic | tooDeep => cases hst
      | function hm hctx _ ht _ =>
          obtain ⟨rfl, hargs⟩ := call_of_invocation hst.symm
          have hf : m.functionLike = true := by
            simpa [Table.isFunctionName, hm] using (Bool.and_eq_true_iff.1 ht).2
          rw [if_pos hf]
          exact ⟨Table.mem_of_lookup hm, by rwa [Table.name_of_lookup hm], hargs⟩
      | object hm hctx _ hf _ =>
          cases hst
          rw [if_neg (by simp [hf])]
          exact ⟨Table.mem_of_lookup hm, by rwa [Table.name_of_lookup hm], rfl⟩

end Expansion
end CPreprocessor

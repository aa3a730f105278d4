import CPreprocessor.Proofs.Macro.IndexedSubstitution
import CPreprocessor.Proofs.Macro.Step

/-!
Expansion by positions. Arguments are assigned to the parameters and expanded into their places by
index, and replacements are made by index; there is no result once an index is out of range. With
a well formed table this is expansion, for every token list: no index is ever out of range.
-/

namespace CPreprocessor
namespace Indexed

open Arguments (comma joined)
open Expansion (Step)

/-- As many arguments as there are parameters at least, if only the last one is missing. -/
def padded (takes : Nat) (raw : List (List Token)) : List (List Token) :=
  if raw.length < takes then raw ++ [[]] else raw

/-- The variable arguments, which begin at the last of the `takes` places, as one. -/
def variableArgument (pos : Pos) (takes : Nat) (raw : List (List Token)) : Option (List Token) :=
  raw[takes - 1]?.map fun first =>
    (raw.drop takes).foldl (fun va a => va ++ comma pos :: a) first

/-- One argument per parameter, if their number fits. -/
def assign (m : Macro) (name : Token) (raw : List (List Token)) :
    Option (Except Error (List (List Token))) :=
  let given := raw.length
  let takes := m.params.length
  if takes = 0 then
    if given ≠ 1 then
      some (.error { fault := .tooManyArguments m.name given 0, pos := name.pos })
    else match raw[0]? with
      | none => none
      | some [] => some (.ok [])
      | some _ => some (.error { fault := .tooManyArguments m.name given 0, pos := name.pos })
  else if m.isVariadic then
    if given < takes - 1 then
      some (.error
        { fault := .tooFewVariadicArguments m.name (takes - 1) given, pos := name.pos })
    else
      (variableArgument name.pos takes (padded takes raw)).map fun last =>
        .ok ((padded takes raw).take (takes - 1) ++ [last])
  else if given < takes then
    some (.error { fault := .tooFewArguments m.name takes given, pos := name.pos })
  else if takes < given then
    some (.error { fault := .tooManyArguments m.name given takes, pos := name.pos })
  else some (.ok raw)

/-- Places for `n` arguments. -/
def places (n : Nat) : List Argument :=
  List.replicate n ⟨[], []⟩

/-- Expands arguments into the places from `i` on. -/
def fill (expand : List Token → Option Output) (args : List Argument) (i : Nat) :
    List (List Token) → Option (Except Error (List Argument))
  | [] => some (.ok args)
  | raw :: rest =>
    match expand raw with
    | none => none
    | some ⟨_, some e⟩ => some (.error e)
    | some ⟨expanded, none⟩ =>
      if i < args.length then fill expand (args.set i ⟨raw, expanded⟩) (i + 1) rest else none

/-- The replacement of an invocation of `m`. -/
def replacement (expand : List Token → Option Output) (m : Macro) (args : List (List Token)) :
    Option (Except Error (List Token)) :=
  match fill expand (places m.params.length) 0 args with
  | none => none
  | some (.error e) => some (.error e)
  | some (.ok args) => substitute m args

/-- The invocation of `m` by the name `t` in front of a list. -/
def invocation (m : Macro) (t : Token) (ts : List Token) : Option (Step (List Token)) :=
  match ts.dropWhile Token.isSpace with
  | [] => some (.emit t [] ts)
  | p :: rest =>
    if p.isPunct (ascii "(") then
      match Arguments.collect t 0 rest with
      | (.error e, rest) => some (.stop (.fault e) rest)
      | (.ok raw, rest) =>
        match assign m t (raw.map Token.trim) with
        | none => none
        | some (.error e) => some (.stop (.fault e) rest)
        | some (.ok args) => some (.call m args rest)
    else some (.emit t [] ts)

/-- One step of the scan of a list at a level. -/
def step (T : Table) (keepDefined : Bool) (depth : Nat) (ctx : Context) :
    List Token → Option (Step (List Token))
  | [] => some (.stop .eof [])
  | t :: ts =>
    if t.kind ≠ .identifier then some (.emit t [] ts)
    else if t.text = Vocabulary.variadicName then
      some (.stop (.fault { fault := .variadicNameInText, pos := t.pos }) ts)
    else if keepDefined = true ∧ t.text = Vocabulary.definedName then
      match Expansion.afterDefined ts with
      | (⟨_, some e⟩, rest) => some (.stop (.fault e) rest)
      | (⟨op, none⟩, rest) => some (.emit t op rest)
    else match T.lookup t.text with
      | none => some (.emit t [] ts)
      | some m =>
        if ctx.contains t.text then some (.emit t [] ts)
        else if depthLimit ≤ depth then
          some (.stop (.fault { fault := .nestedTooDeeply depthLimit t.text, pos := t.pos }) ts)
        else if m.functionLike then invocation m t ts
        else some (.call m [] ts)

theorem joined_cons (pos : Pos) (a : List Token) (as : List (List Token)) :
    joined pos (a :: as) = as.foldl (fun va a => va ++ comma pos :: a) a := by
  have happend (x a : List Token) (as : List (List Token)) :
      as.foldl (fun va a => va ++ comma pos :: a) (x ++ a) =
        x ++ as.foldl (fun va a => va ++ comma pos :: a) a := by
    induction as generalizing a with
    | nil => rfl
    | cons b as ih => rw [List.foldl_cons, List.append_assoc, ih, List.foldl_cons]
  induction as generalizing a with
  | nil => rfl
  | cons b as ih =>
      have hb := happend [comma pos] b as
      rw [joined, ih, List.foldl_cons, happend, ← List.singleton_append, ← hb]
      · rfl
      · simp

theorem take_padded {raw : List (List Token)} {n : Nat} (hle : n - 1 ≤ raw.length) :
    (padded n raw).take (n - 1) = raw.take (n - 1) := by
  unfold padded
  split
  · exact List.take_append_of_le_length hle
  · rfl

/-- The last place is there, if only for no variable arguments. -/
theorem variableArgument_padded (pos : Pos) {raw : List (List Token)} {n : Nat} (hn : 0 < n)
    (hle : n - 1 ≤ raw.length) :
    variableArgument pos n (padded n raw) = some (joined pos (raw.drop (n - 1))) := by
  unfold variableArgument padded
  split
  · obtain rfl : n = raw.length + 1 := by omega
    simp [joined]
  · have hlast : n - 1 < raw.length := by omega
    rw [List.drop_eq_getElem_cons hlast, joined_cons, Nat.sub_add_cancel hn,
      List.getElem?_eq_getElem hlast]
    rfl

/-- Assignment takes no index that is out of range. -/
theorem assign_eq (m : Macro) (name : Token) (raw : List (List Token)) :
    assign m name raw = some (Arguments.assign m name raw) := by
  simp only [assign, Arguments.assign]
  split
  · cases raw with
    | nil => rfl
    | cons a raw =>
        cases raw with
        | nil => cases a <;> rfl
        | cons b raw => simp
  · rename_i hn
    split
    · split
      · rfl
      · rename_i hle
        have hle := Nat.le_of_not_lt hle
        rw [variableArgument_padded name.pos (Nat.pos_of_ne_zero hn) hle, take_padded hle]
        rfl
    · split
      · rfl
      · split <;> rfl

theorem invocation_eq (m : Macro) (t : Token) (ts : List Token) :
    invocation m t ts = some (Expansion.invocation m t ts) := by
  rw [Expansion.invocation_eq, invocation]
  cases ts.dropWhile Token.isSpace with
  | nil => rfl
  | cons p rest =>
      simp only
      split
      · unfold Expansion.argumentsStep
        obtain ⟨e | raw, rest⟩ := Arguments.collect t 0 rest
        · rfl
        · simp only [assign_eq]
          cases Arguments.assign m t (raw.map Token.trim) <;> rfl
      · rfl

/-- A step takes no index that is out of range. -/
theorem step_eq (T : Table) (keep : Bool) (depth : Nat) (ctx : Context) (ts : List Token) :
    step T keep depth ctx ts = some (Expansion.step (fun _ => T) keep depth ctx ts) := by
  cases ts with
  | nil => rfl
  | cons t ts =>
      simp only [step, Expansion.step, TokenStream.next, TokenList.next]
      split
      · rfl
      · split
        · rfl
        · split
          · obtain ⟨⟨op, _ | e⟩, rest⟩ := Expansion.afterDefined ts <;> rfl
          · cases T.lookup t.text with
            | none => rfl
            | some m =>
                simp only
                split
                · rfl
                · split
                  · rfl
                  · split
                    · exact invocation_eq m t ts
                    · rfl

theorem of_step {T : Table} {keep : Bool} {depth : Nat} {ctx : Context} {ts : List Token}
    {st : Step (List Token)} (h : step T keep depth ctx ts = some st) :
    Expansion.step (fun _ => T) keep depth ctx ts = st := by
  rw [step_eq] at h
  exact Option.some.inj h

/-- Arguments of which each has an expansion are expanded into their places. -/
theorem fill_eq {expand : List Token → Output} {indexed : List Token → Option Output}
    (hx : ∀ a, indexed a = some (expand a)) (done : List Argument) (raw : List (List Token)) :
    fill indexed (done ++ places raw.length) done.length raw =
      some ((Expansion.expandArguments expand raw).map (done ++ ·)) := by
  induction raw generalizing done with
  | nil => simp [fill, places, Expansion.expandArguments, Except.map]
  | cons a raw ih =>
      rw [fill, Expansion.expandArguments, hx]
      obtain ⟨out, _ | e⟩ := expand a
      · have hset : (done ++ places (raw.length + 1)).set done.length ⟨a, out⟩ =
            (done ++ [⟨a, out⟩]) ++ places raw.length := by
          rw [List.set_append_right _ _ (Nat.le_refl _), Nat.sub_self, places, List.replicate_succ,
            List.append_assoc]
          rfl
        have hfill := ih (done ++ [⟨a, out⟩])
        rw [List.length_append, List.length_singleton, ← hset] at hfill
        simp only [List.length_cons]
        rw [if_pos (by simp [places]), hfill]
        cases Expansion.expandArguments expand raw with
        | error e => rfl
        | ok as => simp [Except.map]
      · rfl

theorem length_expandArguments {expand : List Token → Output} {raw : List (List Token)}
    {args : List Argument} (h : Expansion.expandArguments expand raw = .ok args) :
    args.length = raw.length := by
  induction raw generalizing args with
  | nil =>
      cases h
      rfl
  | cons a raw ih =>
      rw [Expansion.expandArguments] at h
      split at h
      · cases h
      · obtain ⟨as, has, rfl⟩ := except_map_eq_ok h
        rw [List.length_cons, List.length_cons, ih has]

/-- The replacement by a well formed macro takes no index that is out of range. -/
theorem replacement_eq {expand : List Token → Output} {indexed : List Token → Option Output}
    (hx : ∀ a, indexed a = some (expand a)) {m : Macro} (hm : m.WellFormed)
    {args : List (List Token)} (hargs : args.length = m.params.length) :
    replacement indexed m args =
      some (Expansion.expandArguments expand args >>= Substitution.substitute m) := by
  have hfill := fill_eq hx [] args
  rw [List.nil_append, hargs, List.length_nil] at hfill
  rw [replacement, hfill]
  cases hexp : Expansion.expandArguments expand args with
  | error e => rfl
  | ok as => exact substitute_eq hm ((length_expandArguments hexp).trans hargs)

/-- Expands a token list at a level. -/
def expandAt (T : Table) (keepDefined : Bool) (depth : Nat) (ctx : Context)
    (ts : List Token) : Option Output :=
  match _h : step T keepDefined depth ctx ts with
  | none => none
  | some (.stop e _) => some ⟨[], e.error?⟩
  | some (.emit t op rest) => (expandAt T keepDefined depth ctx rest).map (·.prepend (t :: op))
  | some (.call m args rest) =>
    match replacement (fun a => expandAt T keepDefined (depth + 1) [] a) m args with
    | none => none
    | some (.error e) => some ⟨[], some e⟩
    | some (.ok body) =>
      match expandAt T keepDefined (depth + 1) (ctx.extend m.name) body with
      | none => none
      | some ⟨out, some e⟩ => some ⟨out, some e⟩
      | some ⟨out, none⟩ => (expandAt T keepDefined depth ctx rest).map (·.prepend out)
termination_by (depthLimit - depth, ts.length)
decreasing_by
  · exact Prod.Lex.right _ (Expansion.size_of_emit (of_step _h))
  · have := (Expansion.size_of_call (of_step _h)).2; exact Prod.Lex.left _ _ (by omega)
  · have := (Expansion.size_of_call (of_step _h)).2; exact Prod.Lex.left _ _ (by omega)
  · exact Prod.Lex.right _ (Expansion.size_of_call (of_step _h)).1

/-- A macro that a step invokes has its replacement if the table is well formed. -/
theorem replacement_of_call {T : Table} (hT : T.WellFormed) {keep : Bool} {depth : Nat}
    {ctx : Context} {ts rest : List Token} {m : Macro} {args : List (List Token)}
    (hs : step T keep depth ctx ts = some (.call m args rest))
    (hx : ∀ a, expandAt T keep (depth + 1) [] a =
      some (Expansion.expandAt T keep (depth + 1) [] a)) :
    replacement (fun a => expandAt T keep (depth + 1) [] a) m args =
      some (Expansion.replacement T keep depth m args) := by
  obtain ⟨hm, -, hargs⟩ := Expansion.of_step_call (of_step hs)
  refine replacement_eq hx (hT.macros hm) ?_
  split at hargs
  · exact hargs
  · rename_i hf
    rw [hargs, (hT.macros hm).params_object (Bool.eq_false_iff.2 hf)]
    rfl

/-- Expansion with a well formed table takes no index that is out of range. -/
theorem expandAt_eq {T : Table} (hT : T.WellFormed) (keep : Bool) (depth : Nat) (ctx : Context)
    (ts : List Token) :
    expandAt T keep depth ctx ts = some (Expansion.expandAt T keep depth ctx ts) := by
  fun_induction expandAt T keep depth ctx ts with
  | case1 depth ctx ts hs =>
      rw [step_eq] at hs
      cases hs
  | case2 depth ctx ts e rest hs =>
      rw [Expansion.expandAt_of_stop (of_step hs)]
  | case3 depth ctx ts t op rest hs ih =>
      rw [Expansion.expandAt_of_emit (of_step hs), ih]
      rfl
  | case4 depth ctx ts m args rest hs hr hx =>
      rw [replacement_of_call hT hs hx] at hr
      cases hr
  | case5 depth ctx ts m args rest hs e hr hx =>
      rw [replacement_of_call hT hs hx] at hr
      rw [Expansion.expandAt_of_call (of_step hs), Option.some.inj hr]
  | case6 depth ctx ts m args rest hs body hr hb hx ih =>
      rw [ih] at hb
      cases hb
  | case7 depth ctx ts m args rest hs body hr out e hb hx ih =>
      rw [replacement_of_call hT hs hx] at hr
      rw [Expansion.expandAt_of_call (of_step hs), Option.some.inj hr]
      simp only [Option.some.inj (ih.symm.trans hb)]
  | case8 depth ctx ts m args rest hs body hr out hb hx ih ihrest =>
      rw [replacement_of_call hT hs hx] at hr
      rw [Expansion.expandAt_of_call (of_step hs), Option.some.inj hr, ihrest]
      simp only [Option.some.inj (ih.symm.trans hb)]
      rfl

end Indexed
end CPreprocessor

import CPreprocessor.Macro.Arguments
import CPreprocessor.Macro.Substitution
import CPreprocessor.Macro.Table

/-!
Macro expansion of token lists. A scan step reads one token off a stream, or one whole
invocation. The replacement of an invocation is scanned again with the macro's name in the
context, where it is not expanded, and one level deeper; arguments are expanded on their
own beforehand. Levels are limited, and each step makes the input shorter, so expansion
ends for every table.
-/

namespace CPreprocessor

/-- The deepest level of nested expansion; argument expansion counts too. -/
def depthLimit : Nat :=
  256

/-- The names of the macros being expanded, the outermost first. -/
abbrev Context := List Text

namespace Context

/-- The context inside the expansion of `name`. -/
def extend (ctx : Context) (name : Text) : Context :=
  ctx ++ [name]

end Context

namespace Expansion

open TokenStream (next unread size)

/-- A step of the scan: the end of the stream or an error, a token that stands for itself
with the operand read after it, or an invocation with one argument per parameter. -/
inductive Step (ρ : Type) where
  | stop (e : End) (rest : ρ)
  | emit (t : Token) (operand : List Token) (rest : ρ)
  | call (m : Macro) (args : List (List Token)) (rest : ρ)

variable {ρ : Type} [TokenStream ρ]

/-- The tokens after `defined` through the name it applies to, as far as white space and
opening parentheses lead to one. -/
def afterDefined (r : ρ) : Output × ρ :=
  match _h : next r with
  | .stop e r => (⟨[], e.error?⟩, r)
  | .token t r =>
    if t.kind = .identifier then (⟨[t], none⟩, r)
    else if t.isSpace || t.isPunct (ascii "(") then
      let (out, r) := afterDefined r
      (out.prepend [t], r)
    else ({}, unread [t] r)
termination_by size r
decreasing_by exact TokenStream.size_lt_of_next _h

/-- Reads the arguments of the function-like macro `m` after its name `t`. Without an
opening parenthesis the name stands for itself. -/
def invocation (m : Macro) (t : Token) (r : ρ) : Step ρ :=
  match TokenStream.takeSpace true r with
  | (⟨_, some e⟩, r) => .stop (.fault e) r
  | (⟨ws, none⟩, r) =>
    match TokenStream.takePunct (ascii "(") r with
    | (.error e, r) => .stop (.fault e) r
    | (.ok none, r) => .emit t [] (unread ws r)
    | (.ok (some _), r) =>
      match Arguments.collect t 0 r with
      | (.error e, r) => .stop (.fault e) r
      | (.ok raw, r) =>
        match Arguments.assign m t (raw.map Token.trim) with
        | .error e => .stop (.fault e) r
        | .ok args => .call m args r

/-- One step of the scan at a level. `table` gives the macros in force in each state of the
stream; with `keepDefined` the operand of `defined` is left alone. -/
def step (table : ρ → Table) (keepDefined : Bool) (depth : Nat) (ctx : Context) (r : ρ) :
    Step ρ :=
  match next r with
  | .stop e r => .stop e r
  | .token t r =>
    if t.kind ≠ .identifier then .emit t [] r
    else if t.text = Vocabulary.variadicName then
      .stop (.fault { fault := .variadicNameInText, pos := t.pos }) r
    else if keepDefined = true ∧ t.text = Vocabulary.definedName then
      match afterDefined r with
      | (⟨_, some e⟩, r) => .stop (.fault e) r
      | (⟨op, none⟩, r) => .emit t op r
    else match (table r).lookup t.text with
      | none => .emit t [] r
      | some m =>
        if ctx.contains t.text then .emit t [] r
        else if depthLimit ≤ depth then
          .stop (.fault { fault := .nestedTooDeeply depthLimit t.text, pos := t.pos }) r
        else if m.functionLike then invocation m t r
        else .call m [] r

theorem size_afterDefined_le (r : ρ) : size (afterDefined r).2 ≤ size r := by
  fun_induction afterDefined r with
  | case1 r e r' h => simp [TokenStream.size_of_stop h]
  | case2 r t r' h _ => exact Nat.le_of_lt (TokenStream.size_lt_of_next h)
  | case3 r t r' h _ _ out r'' hd ih =>
    have := TokenStream.size_lt_of_next h
    simp only [hd] at ih
    simp only
    omega
  | case4 r t r' h _ _ => simp [TokenStream.size_of_token h, Nat.add_comm]

/-- An invocation, or a name that stands for itself, reads on from `r`. -/
theorem size_invocation {m : Macro} {t : Token} {r : ρ} :
    (∀ {u op rest}, invocation m t r = .emit u op rest → size rest ≤ size r) ∧
      ∀ {n args rest}, invocation m t r = .call n args rest → size rest ≤ size r := by
  have hs := TokenStream.size_takeSpace true r
  unfold invocation
  split
  · simp
  · rename_i ws r₁ h₁
    simp only [h₁] at hs
    have ht := TokenStream.size_takeIf_le (Token.isPunct (ascii "(")) r₁
    split
    · simp
    · rename_i r₂ h₂
      rw [TokenStream.takePunct] at h₂
      simp only [h₂] at ht
      refine ⟨?_, by simp⟩
      rintro u op rest h
      cases h
      simp only [TokenStream.size_unread]
      omega
    · rename_i p r₂ h₂
      rw [TokenStream.takePunct] at h₂
      simp only [h₂] at ht
      have hc := Arguments.size_le_of_collect t 0 r₂
      split
      · simp
      · rename_i raw r₃ h₃
        simp only [h₃] at hc
        split
        · simp
        · refine ⟨by simp, ?_⟩
          rintro n args rest h
          cases h
          omega

theorem size_of_emit {table : ρ → Table} {keep : Bool} {depth : Nat} {ctx : Context}
    {r rest : ρ} {t : Token} {op : List Token}
    (h : step table keep depth ctx r = .emit t op rest) : size rest < size r := by
  unfold step at h
  split at h
  · contradiction
  · rename_i t' r' hn
    have hlt := TokenStream.size_lt_of_next hn
    split at h
    · cases h; exact hlt
    · split at h
      · contradiction
      · split at h
        · have hd := size_afterDefined_le r'
          split at h
          · contradiction
          · rename_i hop
            cases h
            simp only [hop] at hd
            omega
        · split at h
          · cases h; exact hlt
          · split at h
            · cases h; exact hlt
            · split at h
              · contradiction
              · split at h
                · exact Nat.lt_of_le_of_lt (size_invocation.1 h) hlt
                · contradiction

theorem size_of_call {table : ρ → Table} {keep : Bool} {depth : Nat} {ctx : Context}
    {r rest : ρ} {m : Macro} {args : List (List Token)}
    (h : step table keep depth ctx r = .call m args rest) :
    size rest < size r ∧ depth < depthLimit := by
  unfold step at h
  split at h
  · contradiction
  · rename_i t' r' hn
    have hlt := TokenStream.size_lt_of_next hn
    split at h
    · contradiction
    · split at h
      · contradiction
      · split at h
        · split at h <;> contradiction
        · split at h
          · contradiction
          · split at h
            · contradiction
            · split at h
              · contradiction
              · rename_i hd
                split at h
                · exact ⟨Nat.lt_of_le_of_lt (size_invocation.2 h) hlt, by omega⟩
                · cases h; exact ⟨hlt, by omega⟩

/-- Expands each argument on its own. -/
def expandArguments (expand : List Token → Output) :
    List (List Token) → Except Error (List Argument)
  | [] => .ok []
  | raw :: rest =>
    match expand raw with
    | ⟨_, some e⟩ => .error e
    | ⟨expanded, none⟩ => (expandArguments expand rest).map (⟨raw, expanded⟩ :: ·)

/-- Expands a token list at a level: the tokens, and the error that ended it early. -/
def expandAt (table : Table) (keepDefined : Bool) (depth : Nat) (ctx : Context)
    (ts : List Token) : Output :=
  match _h : step (fun _ => table) keepDefined depth ctx ts with
  | .stop e _ => ⟨[], e.error?⟩
  | .emit t op rest => (expandAt table keepDefined depth ctx rest).prepend (t :: op)
  | .call m args rest =>
    let replacement := do
      let args ← expandArguments (fun a => expandAt table keepDefined (depth + 1) [] a) args
      Substitution.substitute m args
    match replacement with
    | .error e => ⟨[], some e⟩
    | .ok body =>
      match expandAt table keepDefined (depth + 1) (ctx.extend m.name) body with
      | ⟨out, some e⟩ => ⟨out, some e⟩
      | ⟨out, none⟩ => (expandAt table keepDefined depth ctx rest).prepend out
termination_by (depthLimit - depth, ts.length)
decreasing_by
  · exact Prod.Lex.right _ (size_of_emit _h)
  · have := (size_of_call _h).2; exact Prod.Lex.left _ _ (by omega)
  · have := (size_of_call _h).2; exact Prod.Lex.left _ _ (by omega)
  · exact Prod.Lex.right _ (size_of_call _h).1

/-- The replacement of an invocation at a level, its arguments expanded one level deeper. -/
def replacement (table : Table) (keepDefined : Bool) (depth : Nat) (m : Macro)
    (args : List (List Token)) : Except Error (List Token) := do
  let args ← expandArguments (expandAt table keepDefined (depth + 1) []) args
  Substitution.substitute m args

end Expansion

/-- Expands all macros in a token list. -/
def expand (table : Table) (ts : List Token) : Output :=
  Expansion.expandAt table false 0 [] ts

/-- Expands the line of a condition: a name after `defined`, alone or in parentheses, stays,
also when `defined` comes out of a macro. -/
def expandKeepingDefined (table : Table) (ts : List Token) : Output :=
  Expansion.expandAt table true 0 [] ts

end CPreprocessor

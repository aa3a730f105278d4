import CPreprocessor.Proofs.Macro.Follow

/-!
Expansions that are computed. A list is expanded within a bound on the steps; if the bound is
large enough, the result is the expansion.
-/

namespace CPreprocessor
namespace Expansion

/-- Expands each argument on its own, if that can be done within the bound. -/
def argumentsWithin (expand : List Token → Option Output) :
    List (List Token) → Option (Except Error (List Argument))
  | [] => some (.ok [])
  | raw :: rest =>
    match expand raw with
    | none => none
    | some ⟨_, some e⟩ => some (.error e)
    | some ⟨expanded, none⟩ =>
      (argumentsWithin expand rest).map fun as => as.map (⟨raw, expanded⟩ :: ·)

/-- Expands a token list, if no chain of steps is longer than the bound. -/
def expandWithin (T : Table) (keep : Bool) :
    Nat → Nat → Context → List Token → Option Output
  | 0, _, _, _ => none
  | n + 1, depth, ctx, ts =>
    match step (fun _ => T) keep depth ctx ts with
    | .stop e _ => some ⟨[], e.error?⟩
    | .emit t op rest => (expandWithin T keep n depth ctx rest).map (·.prepend (t :: op))
    | .call m args rest =>
      match argumentsWithin (expandWithin T keep n (depth + 1) []) args with
      | none => none
      | some as =>
        match as >>= Substitution.substitute m with
        | .error e => some ⟨[], some e⟩
        | .ok body =>
          match expandWithin T keep n (depth + 1) (ctx.extend m.name) body with
          | none => none
          | some ⟨out, some e⟩ => some ⟨out, some e⟩
          | some ⟨out, none⟩ => (expandWithin T keep n depth ctx rest).map (·.prepend out)

theorem expandArguments_of_within {expand : List Token → Output}
    {within : List Token → Option Output}
    (hw : ∀ {a out}, within a = some out → expand a = out) {raw : List (List Token)}
    {as : Except Error (List Argument)} (h : argumentsWithin within raw = some as) :
    expandArguments expand raw = as := by
  induction raw generalizing as with
  | nil =>
      cases h
      rfl
  | cons a raw ih =>
      rw [argumentsWithin] at h
      rw [expandArguments]
      split at h
      · cases h
      · rename_i hx
        cases h
        rw [hw hx]
      · rename_i hx
        obtain ⟨bs, hbs, rfl⟩ := Option.map_eq_some_iff.1 h
        rw [hw hx, ih hbs]

theorem expandAt_of_within {T : Table} {keep : Bool} {n depth : Nat} {ctx : Context}
    {ts : List Token} {out : Output} (h : expandWithin T keep n depth ctx ts = some out) :
    expandAt T keep depth ctx ts = out := by
  induction n generalizing depth ctx ts out with
  | zero => cases h
  | succ n ih =>
      rw [expandWithin] at h
      split at h
      · rename_i hs
        cases h
        exact expandAt_of_stop hs
      · rename_i hs
        obtain ⟨out', hout, rfl⟩ := Option.map_eq_some_iff.1 h
        rw [expandAt_of_emit hs, ih hout]
      · rename_i m args rest hs
        split at h
        · cases h
        · rename_i as ha
          have hr : replacement T keep depth m args = as >>= Substitution.substitute m := by
            rw [replacement, expandArguments_of_within (fun hx => ih hx) ha]
          rw [expandAt_of_call hs, hr]
          cases hb : as >>= Substitution.substitute m with
          | error e =>
              rw [hb] at h
              cases h
              rfl
          | ok body =>
              simp only [hb] at h ⊢
              split at h
              · cases h
              · rename_i hx
                cases h
                rw [ih hx]
              · rename_i hx
                obtain ⟨out', hout, rfl⟩ := Option.map_eq_some_iff.1 h
                rw [ih hx, ih hout]

theorem replacement_of_within {T : Table} {keep : Bool} {n depth : Nat} {m : Macro}
    {args : List (List Token)} {as : Except Error (List Argument)}
    (h : argumentsWithin (expandWithin T keep n (depth + 1) []) args = some as) :
    replacement T keep depth m args = as >>= Substitution.substitute m := by
  rw [replacement, expandArguments_of_within expandAt_of_within h]

end Expansion
end CPreprocessor

import CPreprocessor.Proofs.Macro.Step
import Mathlib.Data.List.Perm.Subperm
import Mathlib.Logic.Relation

/-!
The scans of an expansion. Expanding a list scans it; an invocation in it has each argument and
then the replacement scanned one level deeper, and the scan goes on behind it. No chain of scans
is endless and none gets below the deepest level. The context of a scan names the replacements
it stands in, each once, so that with object-like macros only there are no more levels than
macros.
-/

namespace CPreprocessor
namespace Expansion

open Relation (ReflTransGen)

/-- A scan of tokens at a level, inside the replacements of the macros named by the context. -/
structure Scan where
  depth : Nat
  context : Context
  input : List Token

namespace Scan

def start (ts : List Token) : Scan :=
  ⟨0, [], ts⟩

/-- The scan further on. -/
def behind (s : Scan) (rest : List Token) : Scan :=
  { s with input := rest }

/-- The scan of an argument, which knows of no replacement around it. -/
def argument (s : Scan) (a : List Token) : Scan :=
  ⟨s.depth + 1, [], a⟩

/-- The scan of a replacement. -/
def rescan (s : Scan) (m : Macro) (body : List Token) : Scan :=
  ⟨s.depth + 1, s.context.extend m.name, body⟩

variable (T : Table) (keep : Bool)

/-- The next step of the scan. -/
def step (s : Scan) : Step (List Token) :=
  Expansion.step (fun _ => T) keep s.depth s.context s.input

/-- What the scan gives. -/
def output (s : Scan) : Output :=
  expandAt T keep s.depth s.context s.input

/-- What the scan gives if `f` tells what the scans after its first step give. -/
def outputFrom (f : Scan → Output) (s : Scan) : Output :=
  match s.step T keep with
  | .stop e _ => ⟨[], e.error?⟩
  | .emit t op rest => (f (s.behind rest)).prepend (t :: op)
  | .call m args rest =>
    match expandArguments (fun a => f (s.argument a)) args >>= Substitution.substitute m with
    | .error e => ⟨[], some e⟩
    | .ok body =>
      match f (s.rescan m body) with
      | ⟨out, some e⟩ => ⟨out, some e⟩
      | ⟨out, none⟩ => (f (s.behind rest)).prepend out

/-- The scans that follow from the first step of a scan. -/
inductive Leads : Scan → Scan → Prop where
  | onward {s t op rest} : s.step T keep = .emit t op rest → Leads s (s.behind rest)
  | argument {s m args rest before a after} : s.step T keep = .call m args rest →
      args = before ++ a :: after →
      (∀ b ∈ before, ((s.argument b).output T keep).error = none) → Leads s (s.argument a)
  | rescan {s m args rest body} : s.step T keep = .call m args rest →
      replacement T keep s.depth m args = .ok body → Leads s (s.rescan m body)
  | resume {s m args rest body} : s.step T keep = .call m args rest →
      replacement T keep s.depth m args = .ok body →
      ((s.rescan m body).output T keep).error = none → Leads s (s.behind rest)

variable {T keep}

/-- A scan that follows is of fewer tokens, or of a deeper level that is not below the last. -/
theorem Leads.lt {s s' : Scan} (h : Leads T keep s s') :
    Prod.Lex (· < ·) (· < ·) (depthLimit - s'.depth, s'.input.length)
      (depthLimit - s.depth, s.input.length) := by
  cases h with
  | onward hs => exact Prod.Lex.right _ (size_of_emit hs)
  | argument hs _ _ | rescan hs _ =>
      have := (size_of_call hs).2
      refine Prod.Lex.left _ _ ?_
      simp only [Scan.argument, Scan.rescan]
      omega
  | resume hs _ _ => exact Prod.Lex.right _ (size_of_call hs).1

variable (T keep) in
theorem wellFounded_leads : WellFounded fun s' s => Leads T keep s s' :=
  Subrelation.wf Leads.lt (InvImage.wf (fun s : Scan => (depthLimit - s.depth, s.input.length))
    (Prod.lex Nat.lt_wfRel Nat.lt_wfRel).wf)

theorem output_of_emit {s : Scan} {t : Token} {op rest : List Token}
    (h : s.step T keep = .emit t op rest) :
    s.output T keep = ((s.behind rest).output T keep).prepend (t :: op) :=
  expandAt_of_emit h

theorem output_of_call {s : Scan} {m : Macro} {args : List (List Token)} {rest : List Token}
    (h : s.step T keep = .call m args rest) :
    s.output T keep =
      match replacement T keep s.depth m args with
      | .error e => ⟨[], some e⟩
      | .ok body =>
        match (s.rescan m body).output T keep with
        | ⟨out, some e⟩ => ⟨out, some e⟩
        | ⟨out, none⟩ => ((s.behind rest).output T keep).prepend out :=
  expandAt_of_call h

/-- The recursive equation of expansion. -/
theorem output_eq (s : Scan) : s.output T keep = s.outputFrom T keep (output T keep) := by
  unfold outputFrom
  split
  · rename_i hs
    exact expandAt_of_stop hs
  · rename_i hs
    exact expandAt_of_emit hs
  · rename_i m args rest hs
    exact expandAt_of_call hs

end Scan

/-- Arguments are expanded up to the first that cannot be. -/
theorem expandArguments_congr {f g : List Token → Output} {args : List (List Token)}
    (h : ∀ before a after, args = before ++ a :: after →
      (∀ b ∈ before, (g b).error = none) →
      f a = g a) : expandArguments f args = expandArguments g args := by
  induction args with
  | nil => rfl
  | cons a args ih =>
      have ha : f a = g a := h [] a args rfl (by simp)
      rw [expandArguments, expandArguments, ha]
      rcases hg : g a with ⟨out, _ | e⟩
      · simp only
        rw [ih]
        intro before b after hargs hbefore
        refine h (a :: before) b after (by rw [hargs]; rfl) ?_
        exact List.forall_mem_cons.2 ⟨by rw [hg], hbefore⟩
      · rfl

theorem exists_of_expandArguments_error {f : List Token → Output} {args : List (List Token)}
    {e : Error} (h : expandArguments f args = .error e) :
    ∃ before a after, args = before ++ a :: after ∧ (∀ b ∈ before, (f b).error = none) ∧
      (f a).error = some e := by
  induction args with
  | nil => cases h
  | cons a args ih =>
      rw [expandArguments] at h
      split at h
      · rename_i hx
        cases h
        exact ⟨[], a, args, rfl, by simp, by rw [hx]⟩
      · rename_i hx
        cases hr : expandArguments f args with
        | ok as =>
            rw [hr] at h
            cases h
        | error e' =>
            rw [hr] at h
            cases h
            obtain ⟨before, b, after, rfl, hbefore, hb⟩ := ih hr
            exact ⟨a :: before, b, after, rfl,
              List.forall_mem_cons.2 ⟨by rw [hx], hbefore⟩, hb⟩

namespace Scan

variable {T : Table} {keep : Bool}

/-- The equation has one solution: along the scans nothing is left open. -/
theorem eq_output_of_outputFrom {f : Scan → Output} (hf : ∀ s, f s = s.outputFrom T keep f)
    (s : Scan) : f s = s.output T keep := by
  induction s using (wellFounded_leads T keep).induction with
  | _ s ih =>
  rw [hf, output_eq]
  unfold outputFrom
  cases hs : s.step T keep with
  | stop e rest => rfl
  | emit t op rest =>
      simp only
      rw [ih _ (.onward hs)]
  | call m args rest =>
      have hargs : expandArguments (fun a => f (s.argument a)) args =
          expandArguments (fun a => (s.argument a).output T keep) args :=
        expandArguments_congr fun before a after ha hbefore => ih _ (.argument hs ha hbefore)
      simp only
      rw [hargs]
      have hr : replacement T keep s.depth m args =
          expandArguments (fun a => (s.argument a).output T keep) args >>=
            Substitution.substitute m := rfl
      rw [← hr]
      cases hb : replacement T keep s.depth m args with
      | error e => rfl
      | ok body =>
          simp only
          rw [ih _ (.rescan hs hb)]
          rcases hx : (s.rescan m body).output T keep with ⟨out, _ | e⟩
          · simp only
            rw [ih _ (.resume hs hb (by rw [hx]))]
          · rfl

/-- An error of an expansion is the error of a step or of a substitution in one of its scans. -/
theorem exists_origin {s : Scan} {e : Error} (h : (s.output T keep).error = some e) :
    (∃ s' rest, ReflTransGen (Leads T keep) s s' ∧ s'.step T keep = .stop (.fault e) rest) ∨
      ∃ m args, Substitution.substitute m args = .error e := by
  induction s using (wellFounded_leads T keep).induction with
  | _ s ih =>
  have hnext {s' : Scan} (hl : Leads T keep s s') (h : (s'.output T keep).error = some e) :
      (∃ s' rest, ReflTransGen (Leads T keep) s s' ∧ s'.step T keep = .stop (.fault e) rest) ∨
        ∃ m args, Substitution.substitute m args = .error e := by
    rcases ih s' hl h with ⟨s'', rest, hr, hs⟩ | hsub
    · exact .inl ⟨s'', rest, .head hl hr, hs⟩
    · exact .inr hsub
  rw [output_eq] at h
  unfold outputFrom at h
  cases hs : s.step T keep with
  | stop f rest =>
      rw [hs] at h
      cases f with
      | eof => cases h
      | fault f =>
          cases h
          exact .inl ⟨s, rest, .refl, hs⟩
  | emit t op rest =>
      rw [hs] at h
      exact hnext (.onward hs) h
  | call m args rest =>
      rw [hs] at h
      simp only at h
      cases ha : expandArguments (fun a => (s.argument a).output T keep) args with
      | error e' =>
          rw [ha] at h
          cases h
          obtain ⟨before, a, after, hargs, hbefore, herr⟩ := exists_of_expandArguments_error ha
          exact hnext (.argument hs hargs hbefore) herr
      | ok as =>
          rw [ha] at h
          simp only [except_ok_bind] at h
          cases hb : Substitution.substitute m as with
          | error e' =>
              rw [hb] at h
              cases h
              exact .inr ⟨m, as, hb⟩
          | ok body =>
              have hr : replacement T keep s.depth m args = .ok body :=
                (congrArg (· >>= Substitution.substitute m) ha).trans hb
              rw [hb] at h
              simp only at h
              rcases hx : (s.rescan m body).output T keep with ⟨out, _ | e'⟩
              · rw [hx] at h
                exact hnext (.resume hs hr (by rw [hx])) h
              · rw [hx] at h
                cases h
                exact hnext (.rescan hs hr) (by rw [hx])

end Scan
end Expansion
end CPreprocessor

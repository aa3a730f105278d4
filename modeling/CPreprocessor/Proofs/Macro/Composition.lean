import CPreprocessor.Proofs.Macro.Evaluation
import CPreprocessor.Proofs.Macro.Step
import Mathlib.Data.List.TakeWhile

/-!
Expansion goes from the left to the right. What a list is expanded to does not depend on the
tokens behind it, and what those are expanded to does not depend on the list: replacements are
scanned on their own, and arguments are read no further than to their closing parenthesis. Only
a function-like name at the end of the list looks further, for its arguments.
-/

namespace CPreprocessor
namespace Expansion

/-- The last token that is not white space is no function-like name. -/
def Settled (T : Table) (ts : List Token) : Prop :=
  ∀ t, (Token.solid ts).getLast? = some t → T.isFunctionName t = false

theorem Settled.of_suffix {T : Table} {ts rest : List Token} (h : Settled T ts)
    (hs : rest <:+ ts) : Settled T rest := by
  intro t ht
  obtain ⟨front, rfl⟩ := hs
  refine h t ?_
  rw [Token.solid, List.filter_append, List.getLast?_append, ← Token.solid, ← Token.solid, ht]
  rfl

/-- In a settled list a function-like name has more than white space behind it. -/
theorem Settled.dropWhile_ne_nil {T : Table} {t : Token} {ts : List Token}
    (h : Settled T (t :: ts)) (ht : T.isFunctionName t = true) :
    ts.dropWhile Token.isSpace ≠ [] := by
  intro hnil
  have hk : t.kind = .identifier := by
    rw [Table.isFunctionName, Bool.and_eq_true, beq_iff_eq] at ht
    exact ht.1
  have hblank : Token.solid ts = [] := by
    rw [Token.solid, List.filter_eq_nil_iff]
    intro u hu
    rw [List.dropWhile_eq_nil_iff.1 hnil u hu]
    simp
  have hlast : (Token.solid (t :: ts)).getLast? = some t := by
    rw [Token.solid, List.filter_cons_of_pos (by simp [Token.isSpace, hk]), ← Token.solid, hblank]
    rfl
  rw [h t hlast] at ht
  cases ht

/-- A step that reads no further than to the end of `a`: it fails, or it is the same with more
tokens behind `a` and leaves an end of `a`. -/
def Step.Confined (again : List Token → Step (List Token)) (a : List Token) :
    Step (List Token) → Prop
  | .stop e _ => e ≠ .eof
  | .emit t op rest => rest <:+ a ∧ ∀ b, again (a ++ b) = .emit t op (rest ++ b)
  | .call m args rest => rest <:+ a ∧ ∀ b, again (a ++ b) = .call m args (rest ++ b)

/-- What is confined to an end of a list is confined to the list, if the list is scanned from
there. -/
theorem Step.Confined.of_suffix {f g : List Token → Step (List Token)} {a rest : List Token}
    {st : Step (List Token)} (h : Confined f rest st) (hs : rest <:+ a)
    (hfg : ∀ b, g (a ++ b) = f (rest ++ b)) : Confined g a st := by
  cases st with
  | stop e r => exact h
  | emit t op r | call m args r => exact ⟨h.1.trans hs, fun b => (hfg b).trans (h.2 b)⟩

theorem confined_argumentsStep (m : Macro) (t : Token) (a : List Token) :
    Step.Confined (argumentsStep m t) a (argumentsStep m t a) := by
  cases hc : Arguments.collect t 0 a with
  | mk x rest =>
  cases x with
  | error e =>
      rw [argumentsStep, hc]
      rintro ⟨⟩
  | ok raw =>
      obtain ⟨hs, hb⟩ := Arguments.collect_append hc
      cases ha : Arguments.assign m t (raw.map Token.trim) with
      | error e =>
          simp only [argumentsStep, hc, ha]
          rintro ⟨⟩
      | ok args =>
          simp only [argumentsStep, hc, ha]
          refine ⟨hs, fun b => ?_⟩
          simp only [argumentsStep, hb, ha]

theorem confined_invocation (m : Macro) (t : Token) {a : List Token}
    (ha : a.dropWhile Token.isSpace ≠ []) :
    Step.Confined (invocation m t) a (invocation m t a) := by
  cases hd : a.dropWhile Token.isSpace with
  | nil => exact absurd hd ha
  | cons p rest =>
      have hb (b : List Token) : (a ++ b).dropWhile Token.isSpace = p :: (rest ++ b) := by
        rw [List.dropWhile_append, hd]
        rfl
      have hs : p :: rest <:+ a := by
        rw [← hd]
        exact List.dropWhile_suffix _
      rw [invocation_eq, hd]
      by_cases hp : p.isPunct (ascii "(") = true
      · simp only [if_pos hp]
        refine (confined_argumentsStep m t rest).of_suffix ((List.suffix_cons p rest).trans hs) ?_
        intro b
        rw [invocation_eq, hb]
        exact if_pos hp
      · simp only [if_neg hp]
        refine ⟨List.suffix_refl a, fun b => ?_⟩
        rw [invocation_eq, hb]
        exact if_neg hp

variable {T : Table} {depth : Nat} {ctx : Context}

theorem confined_step (depth : Nat) (ctx : Context) {t : Token} {ts : List Token}
    (h : Settled T (t :: ts)) :
    Step.Confined (step (fun _ => T) false depth ctx) (t :: ts)
      (step (fun _ => T) false depth ctx (t :: ts)) := by
  have hcase := step_cases T false depth ctx t ts
  generalize step (fun _ => T) false depth ctx (t :: ts) = st at hcase
  cases hcase with
  | pass hpass => exact ⟨List.suffix_cons t ts, fun b => hpass (ts ++ b)⟩
  | variadic | tooDeep => rintro ⟨⟩
  | operand hkeep => cases hkeep
  | function _ _ _ ht hcall =>
      exact (confined_invocation _ t (h.dropWhile_ne_nil ht)).of_suffix (List.suffix_cons t ts)
        fun b => hcall (ts ++ b)
  | object _ _ _ _ hcall => exact ⟨List.suffix_cons t ts, fun b => hcall (ts ++ b)⟩

/-- The steps through a settled list are the first steps through a longer one. -/
theorem expandAt_append {a : List Token} (h : Settled T a)
    (ha : (expandAt T false depth ctx a).error = none) (b : List Token) :
    expandAt T false depth ctx (a ++ b) =
      (expandAt T false depth ctx b).prepend (expandAt T false depth ctx a).tokens := by
  induction hn : a.length using Nat.strongRecOn generalizing a with
  | ind n ih =>
  cases a with
  | nil =>
      have hend : step (fun _ => T) false depth ctx ([] : List Token) = .stop .eof [] := rfl
      rw [expandAt_of_stop hend]
      rfl
  | cons t ts =>
      have hstep := confined_step depth ctx h
      cases hs : step (fun _ => T) false depth ctx (t :: ts) with
      | stop e rest =>
          rw [hs] at hstep
          rw [expandAt_of_stop hs] at ha
          cases e with
          | eof => exact absurd rfl hstep
          | fault e => cases ha
      | emit u op rest =>
          rw [hs] at hstep
          obtain ⟨hsuf, hb⟩ := hstep
          rw [expandAt_of_emit hs] at ha
          rw [expandAt_of_emit (hb b), expandAt_of_emit hs,
            ih rest.length (hn ▸ size_of_emit hs) (h.of_suffix hsuf) ha rfl]
          simp [Output.prepend]
      | call m args rest =>
          rw [hs] at hstep
          obtain ⟨hsuf, hb⟩ := hstep
          rw [expandAt_of_call hs] at ha
          rw [expandAt_of_call (hb b), expandAt_of_call hs]
          -- The replacement is expanded before what follows it in either list is looked at.
          cases hr : replacement T false depth m args with
          | error e =>
              rw [hr] at ha
              cases ha
          | ok body =>
              rw [hr] at ha
              simp only at ha ⊢
              generalize expandAt T false (depth + 1) (ctx.extend m.name) body = out at ha ⊢
              obtain ⟨out, _ | e⟩ := out
              · simp only at ha ⊢
                rw [ih rest.length (hn ▸ (size_of_call hs).1) (h.of_suffix hsuf) ha rfl]
                simp [Output.prepend]
              · cases ha

end Expansion

/-- Two lists one after the other are expanded one after the other, if the first can be expanded
and does not end with a function-like name: what is before the first error is the same, and so
is the error. -/
theorem expand_append (T : Table) (a b : List Token) (ha : (expand T a).error = none)
    (hlast : ∀ t, (Token.solid a).getLast? = some t → T.isFunctionName t = false) :
    (expand T (a ++ b)).tokens = (expand T a).tokens ++ (expand T b).tokens ∧
      (expand T (a ++ b)).error = (expand T b).error := by
  have happ : expand T (a ++ b) = (expand T b).prepend (expand T a).tokens :=
    Expansion.expandAt_append hlast ha b
  rw [happ]
  exact ⟨rfl, rfl⟩

namespace Expansion.Sample

def word (s : String) : Token :=
  { kind := .identifier, text := ascii s }

def punct (s : String) : Token :=
  { kind := .punctuator, text := ascii s }

/-- A macro that calls itself on its argument, and one that vanishes. -/
def table : Table :=
  ⟨[{ name := ascii "twice", functionLike := true, params := [ascii "x"],
      body := [word "twice", punct "(", word "x", punct ")", word "x"] },
    { name := ascii "none" }]⟩

/-- An invocation with another one as its argument. -/
def front : List Token :=
  [word "twice", Token.space {}, punct "(", word "none", word "y", punct ")"]

/-- An invocation that is not closed. -/
def back : List Token :=
  [word "none", word "z", word "twice", punct "("]

end Expansion.Sample

open Expansion.Sample in
theorem expand_append_unclosed :
    (expand table front).error = none ∧
      (∀ t, (Token.solid front).getLast? = some t → table.isFunctionName t = false) ∧
      (expand table (front ++ back)).tokens =
        [word "twice", punct "(", word "y", punct ")", word "y", word "z"] ∧
      (expand table (front ++ back)).error =
        some { fault := .unterminatedArguments (ascii "twice") } := by
  have hfront : expand table front =
      ⟨[word "twice", punct "(", word "y", punct ")", word "y"], none⟩ :=
    Expansion.expandAt_of_within (n := 9) (by decide +kernel)
  have hback : expand table back =
      ⟨[word "z"], some { fault := .unterminatedArguments (ascii "twice") }⟩ :=
    Expansion.expandAt_of_within (n := 9) (by decide +kernel)
  have herror : (expand table front).error = none := by rw [hfront]
  have hlast : ∀ t, (Token.solid front).getLast? = some t → table.isFunctionName t = false := by
    intro t ht
    cases ht
    rfl
  have happ := expand_append table front back herror hlast
  rw [hfront, hback] at happ
  exact ⟨herror, hlast, happ⟩

end CPreprocessor

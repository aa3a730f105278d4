import CPreprocessor.Fault
import CPreprocessor.Source.Glyph

/-!
A scanner cuts a glyph sequence in two: what it takes and what it leaves. Nothing is lost
or added, which is the first fact to know about every scanner.
-/

namespace CPreprocessor

theorem except_map_eq_ok {ε α β : Type} {f : α → β} {x : Except ε α} {b : β}
    (h : x.map f = .ok b) : ∃ a, x = .ok a ∧ f a = b := by
  cases x with
  | error e => simp [Except.map] at h
  | ok a => exact ⟨a, rfl, by simpa [Except.map] using h⟩

/-- The glyphs a scanner takes and those it leaves. -/
structure Cut where
  taken : List Glyph
  rest : List Glyph
deriving DecidableEq, Repr

namespace Cut

/-- The sequence that was cut. -/
def whole (c : Cut) : List Glyph :=
  c.taken ++ c.rest

/-- Glyphs taken before those of a cut. -/
def prepend (gs : List Glyph) (c : Cut) : Cut :=
  { c with taken := gs ++ c.taken }

@[simp] theorem whole_mk (taken rest : List Glyph) : whole ⟨taken, rest⟩ = taken ++ rest :=
  rfl

@[simp] theorem whole_prepend (gs : List Glyph) (c : Cut) :
    (c.prepend gs).whole = gs ++ c.whole := by
  simp [prepend, whole]

@[simp] theorem taken_prepend (gs : List Glyph) (c : Cut) :
    (c.prepend gs).taken = gs ++ c.taken :=
  rfl

@[simp] theorem rest_prepend (gs : List Glyph) (c : Cut) : (c.prepend gs).rest = c.rest :=
  rfl

theorem length_whole (c : Cut) : c.whole.length = c.taken.length + c.rest.length := by
  simp [whole]

/-- Takes glyphs while their bytes satisfy `p`. -/
def spanning (p : UInt8 → Bool) : List Glyph → Cut
  | [] => ⟨[], []⟩
  | g :: gs => if p g.byte then (spanning p gs).prepend [g] else ⟨[], g :: gs⟩

@[simp] theorem whole_spanning (p : UInt8 → Bool) (gs : List Glyph) :
    (spanning p gs).whole = gs := by
  induction gs with
  | nil => rfl
  | cons g gs ih => by_cases h : p g.byte <;> simp [spanning, h, ih]

/-- Takes the glyphs that spell `t`, if they come first. -/
def spelled : Text → List Glyph → Option Cut
  | [], gs => some ⟨[], gs⟩
  | _ :: _, [] => none
  | b :: t, g :: gs => if g.byte = b then (spelled t gs).map (prepend [g]) else none

theorem whole_of_spelled {t : Text} {gs : List Glyph} {c : Cut} (h : spelled t gs = some c) :
    c.whole = gs := by
  induction t generalizing gs c with
  | nil => simp_all [spelled]; subst h; rfl
  | cons b t ih =>
    cases gs with
    | nil => simp [spelled] at h
    | cons g gs =>
      simp only [spelled] at h
      split at h
      · obtain ⟨d, hd, rfl⟩ := Option.map_eq_some_iff.1 h
        simp [ih hd]
      · contradiction

theorem length_taken_of_spelled {t : Text} {gs : List Glyph} {c : Cut}
    (h : spelled t gs = some c) : c.taken.length = t.length := by
  induction t generalizing gs c with
  | nil => simp_all [spelled]; subst h; rfl
  | cons b t ih =>
    cases gs with
    | nil => simp [spelled] at h
    | cons g gs =>
      simp only [spelled] at h
      split at h
      · obtain ⟨d, hd, rfl⟩ := Option.map_eq_some_iff.1 h
        simp [ih hd]
      · contradiction

end Cut

/-- The position of the first glyph, or `stop` if there is none. -/
def Glyph.headPos (stop : Pos) : List Glyph → Pos
  | [] => stop
  | g :: _ => g.pos

end CPreprocessor

import CPreprocessor.Lexer.Cut

/-!
White space and comments. A run of blanks, line ends and comments is scanned as one: a
comment counts as one space, and the run ends a line if it has a line end outside
comments.
-/

namespace CPreprocessor
namespace Lexer

/-- Takes glyphs through the end of a block comment, if there is one. -/
def blockComment : List Glyph → Option Cut
  | [] => none
  | [_] => none
  | g :: h :: gs =>
    if g.byte = '*'.toUInt8 ∧ h.byte = '/'.toUInt8 then some ⟨[g, h], gs⟩
    else (blockComment (h :: gs)).map (Cut.prepend [g])

/-- What the beginning of a glyph sequence says about a comment. -/
inductive Comment where
  | absent
  | unterminated
  | found (cut : Cut)

/-- The comment at the front. A line comment leaves the line end. -/
def comment : List Glyph → Comment
  | g :: h :: gs =>
    if g.byte = '/'.toUInt8 ∧ h.byte = '*'.toUInt8 then
      match blockComment gs with
      | some c => .found (c.prepend [g, h])
      | none => .unterminated
    else if g.byte = '/'.toUInt8 ∧ h.byte = '/'.toUInt8 then
      .found ((Cut.spanning (fun b => !Byte.isLineBreak b) gs).prepend [g, h])
    else .absent
  | _ => .absent

theorem whole_of_blockComment {gs : List Glyph} {c : Cut} (h : blockComment gs = some c) :
    c.whole = gs := by
  fun_induction blockComment gs generalizing c with
  | case1 | case2 => simp_all
  | case3 g h gs hb => simp_all; subst h; rfl
  | case4 g h gs hb ih =>
    obtain ⟨d, hd, rfl⟩ := Option.map_eq_some_iff.1 h
    simp [ih hd]

theorem whole_of_comment {gs : List Glyph} {c : Cut} (h : comment gs = .found c) :
    c.whole = gs ∧ 2 ≤ c.taken.length := by
  unfold comment at h
  split at h
  · split at h
    · split at h
      · rename_i c hc
        simp only [Comment.found.injEq] at h
        subst h
        simp [whole_of_blockComment hc]
      · contradiction
    · split at h
      · simp only [Comment.found.injEq] at h
        subst h
        simp
      · contradiction
  · contradiction

/-- A scanned run of white space: its text with each comment as one space, whether it ends
a line, and the cut. -/
structure Space where
  text : Text
  newline : Bool
  cut : Cut

namespace Space

/-- Nothing in front of `gs`. -/
def none (gs : List Glyph) : Space :=
  ⟨[], false, ⟨[], gs⟩⟩

/-- A part put in front of a run. -/
def prepend (text : Text) (newline : Bool) (gs : List Glyph) (s : Space) : Space :=
  ⟨text ++ s.text, newline || s.newline, s.cut.prepend gs⟩

end Space

/-- Scans white space. There is no result if a comment does not end. -/
def space (gs : List Glyph) : Option Space :=
  match gs with
  | [] => some (.none [])
  | g :: t =>
    if Byte.isLineBreak g.byte then (space t).map (.prepend [g.byte] true [g])
    else if Byte.isBlank g.byte then (space t).map (.prepend [g.byte] false [g])
    else match _h : comment (g :: t) with
      | .absent => some (.none (g :: t))
      | .unterminated => none
      | .found c => (space c.rest).map (.prepend [Byte.space] false c.taken)
termination_by gs.length
decreasing_by
  · simp
  · simp
  · have hc := whole_of_comment _h
    have hl := congrArg List.length hc.1
    rw [Cut.length_whole] at hl
    omega

theorem whole_of_space {gs : List Glyph} {s : Space} (h : space gs = some s) :
    s.cut.whole = gs := by
  fun_induction space gs generalizing s with
  | case1 => simp_all [Space.none]; subst h; rfl
  | case2 g t hg ih | case3 g t _ hg ih =>
    obtain ⟨d, hd, rfl⟩ := Option.map_eq_some_iff.1 h
    simp [Space.prepend, ih hd]
  | case4 g t _ _ _ => simp_all [Space.none]; subst h; rfl
  | case5 => simp at h
  | case6 g t _ _ c hc ih =>
    obtain ⟨d, hd, rfl⟩ := Option.map_eq_some_iff.1 h
    rw [← (whole_of_comment hc).1, Space.prepend, Cut.whole_prepend, ih hd, Cut.whole]

theorem taken_ne_nil_of_space {gs : List Glyph} {s : Space} (h : space gs = some s)
    (hs : s.text ≠ []) : s.cut.taken ≠ [] := by
  unfold space at h
  split at h
  · simp_all [Space.none]; subst h; contradiction
  · split at h
    · obtain ⟨d, hd, rfl⟩ := Option.map_eq_some_iff.1 h
      simp [Space.prepend]
    · split at h
      · obtain ⟨d, hd, rfl⟩ := Option.map_eq_some_iff.1 h
        simp [Space.prepend]
      · split at h
        · simp_all [Space.none]; subst h; contradiction
        · contradiction
        · rename_i c hc
          obtain ⟨d, hd, rfl⟩ := Option.map_eq_some_iff.1 h
          have := (whole_of_comment hc).2
          intro hn
          simp_all [Space.prepend]

end Lexer
end CPreprocessor

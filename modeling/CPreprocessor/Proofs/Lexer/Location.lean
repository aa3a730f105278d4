import CPreprocessor.Proofs.Lexer.Failure

/-!
Where tokens and errors of the lexer stand. If the glyphs of a lexer are at positions of a set,
and the end of its source too, so are its tokens and its errors. The glyphs of a text are at
positions of the text.
-/

namespace CPreprocessor

variable {S : Pos → Prop}

namespace Lexer

open Error (Located)

/-- The glyphs and the end of the source stand at positions of `S`. -/
structure Placed (S : Pos → Prop) (l : Lexer) : Prop where
  rest : Glyph.Placed S l.rest
  stop : S l.stop

namespace Placed

variable {l l₁ : Lexer}

theorem token (h : l.Placed S) {t : Token} (hp : Source.pull l = .token t l₁) :
    S t.pos ∧ l₁.Placed S := by
  change l.pull = _ at hp
  unfold pull at hp
  split at hp
  · cases hp
  · rename_i g gs hr
    have hrest := h.rest
    rw [hr] at hrest
    split at hp
    · rename_i x hx
      cases hp
      have hsuffix : x.cut.rest <:+ g :: gs :=
        ⟨x.cut.taken, (cuts_lexeme hx).whole⟩
      exact ⟨hrest.of_cons.1, hrest.of_suffix hsuffix, h.stop⟩
    · cases hp

theorem fault (h : l.Placed S) {e : Error} (hp : Source.pull l = .stop (.fault e) l₁) :
    Located S e := by
  change l.pull = _ at hp
  unfold pull at hp
  split at hp
  · cases hp
  · rename_i g gs hr
    have hrest := h.rest
    rw [hr] at hrest
    split at hp
    · cases hp
    · rename_i he
      cases hp
      exact (lexical_lexeme h.stop hrest _ he).located

end Placed
end Lexer

/-- A position in a text of `n` bytes, or at its end. -/
structure Pos.Within (n : Nat) (p : Pos) : Prop where
  line : 1 ≤ p.line
  col : 1 ≤ p.col
  nonneg : 0 ≤ p.offset
  offset_le : p.offset ≤ n

namespace Pos

variable {n : Nat} {p : Pos}

theorem within_start (n : Nat) : Within n .start :=
  ⟨Int.le_refl _, Int.le_refl _, Int.le_refl _, Int.natCast_nonneg n⟩

theorem offset_after (p : Pos) (b : UInt8) (t : Text) : (p.after b t).offset = p.offset + 1 := by
  unfold after
  split <;> rfl

theorem after_of_endsLine {b : UInt8} {t : Text} (h : endsLine b t = true) (p : Pos) :
    p.after b t = p.newLine :=
  if_pos h

theorem after_of_not_isLineBreak {b : UInt8} (h : Byte.isLineBreak b = false) (p : Pos) (t : Text) :
    p.after b t = p.right := by
  obtain ⟨hlf, hcr⟩ := Bool.or_eq_false_iff.1 h
  refine if_neg ?_
  simp [endsLine, hlf, hcr]

/-- Every position from `p` on through a text is in `S`. -/
def Along (S : Pos → Prop) (p : Pos) : Text → Prop
  | [] => S p
  | b :: t => S p ∧ Along S (p.after b t) t

theorem Along.here {t : Text} (h : Along S p t) : S p := by
  cases t with
  | nil => exact h
  | cons b t => exact h.1

theorem Along.atEnd {t : Text} (h : Along S p t) : S (p.atEnd t) := by
  induction t generalizing p with
  | nil => exact h
  | cons b t ih => exact ih h.2

theorem Within.after (h : p.Within n) (hlt : p.offset < n) (b : UInt8) (t : Text) :
    (p.after b t).Within n := by
  obtain ⟨hline, hcol, hnonneg, -⟩ := h
  unfold Pos.after
  split
  · exact ⟨by simp only [Pos.newLine]; omega, Int.le_refl _,
      by simp only [Pos.newLine]; omega, hlt⟩
  · exact ⟨hline, by simp only [Pos.right]; omega, by simp only [Pos.right]; omega, hlt⟩

theorem Within.along (h : p.Within n) {t : Text} (hn : p.offset + t.length = n) :
    Along (Within n) p t := by
  induction t generalizing p with
  | nil => exact h
  | cons b t ih =>
      simp only [List.length_cons, Int.natCast_add, Int.natCast_one] at hn
      exact ⟨h, ih (h.after (by omega) b t) (by rw [offset_after]; omega)⟩

end Pos

/-- The glyphs of a text stand at positions along it. -/
theorem Glyph.placed_spliced {p : Pos} {t : Text} (h : Pos.Along S p t) :
    Placed S (spliced p t).2 := by
  have hbackslash (p : Pos) (t : Text) : p.after Byte.backslash t = p.right :=
    Pos.after_of_not_isLineBreak (by decide) p t
  induction p, t using spliced_induction with
  | nil p =>
      intro g hg
      cases hg
  | crlf p t ih =>
      rw [spliced_crlf]
      obtain ⟨-, -, -, htail⟩ := h
      rw [hbackslash] at htail
      exact ih htail
  | join p b t hb ih =>
      rw [spliced_join p hb]
      obtain ⟨-, -, htail⟩ := h
      rw [hbackslash, Pos.after_of_endsLine hb] at htail
      exact ih htail
  | byte p b t hb ih =>
      rw [spliced_cons p hb]
      obtain ⟨hp, htail⟩ := h
      refine List.forall_mem_cons.2 ⟨⟨hp, fun hbreak _ => ?_⟩, ih htail⟩
      have hnext := htail.here
      rwa [Pos.after_of_not_isLineBreak hbreak] at hnext

theorem Lexer.placed_of_along {src : Text} (h : Pos.Along S .start src) : (ofText src).Placed S :=
  ⟨Glyph.placed_spliced h, h.atEnd⟩

theorem Lexer.placed_ofText (src : Text) : (ofText src).Placed (Pos.Within src.length) :=
  placed_of_along ((Pos.within_start _).along (by simp [Pos.start]))

end CPreprocessor

import CPreprocessor.Proofs.Source.Splicing

/-!
The glyphs of a text whose last line is ended and of what follows it. The line joins at the
beginning of the second text fall behind the line end, and nothing else changes but places.
-/

namespace CPreprocessor

namespace Glyph

/-- The glyph with no place. -/
def unplaced (g : Glyph) : Glyph :=
  { g with pos := {} }

theorem byte_eq {g g' : Glyph} (h : g.unplaced = g'.unplaced) : g.byte = g'.byte :=
  (Glyph.mk.inj h).1

theorem splices_eq {g g' : Glyph} (h : g.unplaced = g'.unplaced) : g.splices = g'.splices :=
  (Glyph.mk.inj h).2.2

/-- The second list has the glyphs of the first in other places. With a tail, the last of them
is a line break, and there the tail goes on. -/
inductive Leads : Option (List Glyph) → List Glyph → List Glyph → Prop where
  | nil : Leads none [] []
  | seam {g g' hs} : Byte.isLineBreak g.byte = true → g.byte = g'.byte →
      Leads (some hs) [g] (g' :: hs)
  | cons {tail g g' gs gs'} : g.unplaced = g'.unplaced → Leads tail gs gs' →
      Leads tail (g :: gs) (g' :: gs')

namespace Leads

variable {tail : Option (List Glyph)} {g : Glyph} {gs gs' : List Glyph}

theorem of_nil (h : Leads tail [] gs') : tail = none ∧ gs' = [] := by
  cases h
  exact ⟨rfl, rfl⟩

/-- A glyph that is no line break stands in both lists. -/
theorem of_cons (h : Leads tail (g :: gs) gs') (hg : Byte.isLineBreak g.byte = false) :
    ∃ g' hs, gs' = g' :: hs ∧ g.unplaced = g'.unplaced ∧ Leads tail gs hs := by
  cases h with
  | seam hb _ =>
      rw [hg] at hb
      cases hb
  | cons hu h => exact ⟨_, _, rfl, hu, h⟩

theorem head (h : Leads tail (g :: gs) gs') : ∃ g' hs, gs' = g' :: hs ∧ g.byte = g'.byte := by
  cases h with
  | seam _ hb => exact ⟨_, _, rfl, hb⟩
  | cons hu _ => exact ⟨_, _, rfl, byte_eq hu⟩

theorem of_cons_cons {h : Glyph} (hl : Leads tail (g :: h :: gs) gs') :
    ∃ g' hs, gs' = g' :: hs ∧ g.unplaced = g'.unplaced ∧ Leads tail (h :: gs) hs := by
  cases hl with
  | cons hu h => exact ⟨_, _, rfl, hu, h⟩

theorem symm {hs : List Glyph} (h : Leads none gs hs) : Leads none hs gs := by
  generalize htail : (none : Option (List Glyph)) = tail at h
  induction h with
  | nil => exact .nil
  | seam => cases htail
  | cons hu _ ih => exact .cons hu.symm (ih htail)

end Leads

/-- Where a text stands changes the places only. -/
theorem leads_spliced (p q : Pos) (t : Text) :
    (spliced p t).1 = (spliced q t).1 ∧ Leads none (spliced p t).2 (spliced q t).2 := by
  induction p, t using spliced_induction generalizing q with
  | nil p => exact ⟨rfl, .nil⟩
  | crlf p t ih =>
      obtain ⟨hlead, hl⟩ := ih q.right.right.newLine
      rw [spliced_crlf, spliced_crlf, hlead]
      exact ⟨rfl, hl⟩
  | join p b t h ih =>
      obtain ⟨hlead, hl⟩ := ih q.right.newLine
      rw [spliced_join p h, spliced_join q h, hlead]
      exact ⟨rfl, hl⟩
  | byte p b t h ih =>
      obtain ⟨hlead, hl⟩ := ih (q.after b t)
      rw [spliced_cons p h, spliced_cons q h, hlead]
      exact ⟨rfl, .cons rfl hl⟩

end Glyph

namespace Text

/-- The text ends in a line break that is not part of a line join. -/
def EndsLine (t : Text) : Prop :=
  ∃ u b, t = u ++ [b] ∧ Byte.isLineBreak b = true ∧ ¬[Byte.backslash] <:+ u ∧
    (b = Byte.lineFeed → ¬[Byte.backslash, Byte.carriageReturn] <:+ u)

end Text

namespace Glyph

theorem endsLine_append_break {b c : UInt8} {t : Text} (h : Pos.endsLine b t = true)
    (ht : c = Byte.lineFeed →
      ¬[Byte.backslash, Byte.carriageReturn] <:+ Byte.backslash :: b :: t) (u : Text) :
    Pos.endsLine b (t ++ c :: u) = true := by
  cases t with
  | cons d t => exact h
  | nil =>
      simp only [Pos.endsLine, Bool.or_eq_true, beq_iff_eq, Bool.and_eq_true] at h ⊢
      rcases h with h | ⟨rfl, -⟩
      · exact .inl h
      · refine .inr ⟨rfl, ?_⟩
        have hc : c ≠ Byte.lineFeed := fun hc => ht hc (List.suffix_refl _)
        simpa using hc

theorem joinFirst_append_break {b : UInt8} {t : Text} (h : joinFirst (b :: t) = false)
    (ht : ¬[Byte.backslash] <:+ b :: t) (c : UInt8) (u : Text) :
    joinFirst (b :: (t ++ c :: u)) = false := by
  cases t with
  | cons d t => exact h
  | nil =>
      have hb : b ≠ Byte.backslash := by
        rintro rfl
        exact ht (List.suffix_refl _)
      simp [joinFirst, hb]

/-- Behind a line end the glyphs of the second text follow those of the first. -/
theorem leads_spliced_append {t : Text} (ht : t.EndsLine) (p q : Pos) (u : Text) :
    ∃ r, Leads (some (spliced r u).2) (spliced p t).2 (spliced q (t ++ u)).2 := by
  obtain ⟨t, c, rfl, hbreak, hb, hc⟩ := ht
  rw [List.append_assoc]
  change ∃ r, Leads _ _ (spliced q (t ++ c :: u)).2
  suffices h : (spliced p (t ++ [c])).1 = (spliced q (t ++ c :: u)).1 ∧
      ∃ r, Leads (some (spliced r u).2) (spliced p (t ++ [c])).2 (spliced q (t ++ c :: u)).2 from
        h.2
  have hsuffix {v w : Text} (hw : ¬v <:+ w) {w' : Text} (hs : w' <:+ w) : ¬v <:+ w' :=
    fun h => hw (h.trans hs)
  have hfirst (v : Text) : joinFirst (c :: v) = false := by
    have hne : c ≠ Byte.backslash := by
      rintro rfl
      cases hbreak
    cases v with
    | nil => rfl
    | cons d v => simp [joinFirst, hne]
  -- The induction is on the text; the position in it is neither of the two.
  obtain ⟨s⟩ : Nonempty Pos := ⟨p⟩
  induction s, t using spliced_induction generalizing p q with
  | nil _ =>
      rw [List.nil_append, List.nil_append, spliced_cons p (hfirst []), spliced_cons q (hfirst u)]
      exact ⟨rfl, _, .seam hbreak rfl⟩
  | crlf _ t ih =>
      have hs : t <:+ Byte.backslash :: Byte.carriageReturn :: Byte.lineFeed :: t :=
        ⟨[_, _, _], rfl⟩
      obtain ⟨hlead, r, hl⟩ := ih p.right.right.newLine q.right.right.newLine
        (hsuffix hb hs) (fun h => hsuffix (hc h) hs)
      simp only [List.cons_append]
      rw [spliced_crlf, spliced_crlf, hlead]
      exact ⟨rfl, r, hl⟩
  | join _ b t h ih =>
      have hs : t <:+ Byte.backslash :: b :: t := ⟨[_, _], rfl⟩
      obtain ⟨hlead, r, hl⟩ := ih p.right.newLine q.right.newLine
        (hsuffix hb hs) (fun h => hsuffix (hc h) hs)
      simp only [List.cons_append]
      rw [spliced_join p (endsLine_append_break h hc []),
        spliced_join q (endsLine_append_break h hc u), hlead]
      exact ⟨rfl, r, hl⟩
  | byte _ b t h ih =>
      have hs : t <:+ b :: t := List.suffix_cons b t
      obtain ⟨hlead, r, hl⟩ := ih (p.after b (t ++ [c])) (q.after b (t ++ c :: u))
        (hsuffix hb hs) (fun h => hsuffix (hc h) hs)
      simp only [List.cons_append]
      rw [spliced_cons p (joinFirst_append_break h hb c []),
        spliced_cons q (joinFirst_append_break h hb c u), hlead]
      exact ⟨rfl, r, .cons rfl hl⟩

end Glyph

end CPreprocessor

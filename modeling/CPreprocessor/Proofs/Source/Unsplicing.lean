import CPreprocessor.Proofs.Source.Splicing

/-!
Joining lines as a pass of its own. One walk over a text from left to right takes out its
line joins; the glyphs of the text spell what is left, and each of them knows its offset.
-/

namespace CPreprocessor
namespace Text

/-- A text without its line joins, which one pass from left to right takes out. -/
def unsplice : Text → Text
  | [] => []
  | Byte.backslash :: Byte.carriageReturn :: Byte.lineFeed :: t => unsplice t
  | Byte.backslash :: Byte.lineFeed :: t => unsplice t
  | Byte.backslash :: Byte.carriageReturn :: t => unsplice t
  | b :: t => b :: unsplice t

/-- The number of bytes that the line joins at the front of a text take. -/
def joinsLength : Text → Nat
  | Byte.backslash :: Byte.carriageReturn :: Byte.lineFeed :: t => joinsLength t + 3
  | Byte.backslash :: Byte.lineFeed :: t => joinsLength t + 2
  | Byte.backslash :: Byte.carriageReturn :: t => joinsLength t + 2
  | _ => 0

open Glyph (joinFirst)

theorem unsplice_join {b : UInt8} {t : Text} (h : Pos.endsLine b t = true) :
    unsplice (Byte.backslash :: b :: t) = unsplice t := by
  simp only [Pos.endsLine, Bool.or_eq_true, beq_iff_eq, Bool.and_eq_true, bne_iff_ne] at h
  obtain rfl | ⟨rfl, ht⟩ := h
  · exact unsplice.eq_3 t
  · refine unsplice.eq_4 t ?_
    rintro t' rfl
    exact ht rfl

theorem unsplice_cons {b : UInt8} {t : Text} (h : joinFirst (b :: t) = false) :
    unsplice (b :: t) = b :: unsplice t := by
  rw [unsplice]
  · rintro t' rfl rfl
    simp [joinFirst, Byte.isLineBreak] at h
  · rintro t' rfl rfl
    simp [joinFirst, Byte.isLineBreak] at h
  · rintro t' rfl rfl
    simp [joinFirst, Byte.isLineBreak] at h

theorem joinsLength_join {b : UInt8} {t : Text} (h : Pos.endsLine b t = true) :
    joinsLength (Byte.backslash :: b :: t) = joinsLength t + 2 := by
  simp only [Pos.endsLine, Bool.or_eq_true, beq_iff_eq, Bool.and_eq_true, bne_iff_ne] at h
  obtain rfl | ⟨rfl, ht⟩ := h
  · exact joinsLength.eq_2 t
  · refine joinsLength.eq_3 t ?_
    rintro t' rfl
    exact ht rfl

theorem joinsLength_cons {b : UInt8} {t : Text} (h : joinFirst (b :: t) = false) :
    joinsLength (b :: t) = 0 := by
  refine joinsLength.eq_4 _ ?_ ?_ ?_
  · rintro t' ⟨⟩
    simp [joinFirst, Byte.isLineBreak] at h
  · rintro t' ⟨⟩
    simp [joinFirst, Byte.isLineBreak] at h
  · rintro t' ⟨⟩
    simp [joinFirst, Byte.isLineBreak] at h

end Text

namespace Glyph

open Text

theorem length_fst_spliced (p : Pos) (t : Text) : (spliced p t).1.length = joinsLength t := by
  induction p, t using spliced_induction with
  | nil p => rfl
  | crlf p t ih =>
      rw [spliced_crlf]
      exact congrArg (· + 3) ih
  | join p b t h ih =>
      rw [spliced_join p h, joinsLength_join h, ← ih]
      rfl
  | byte p b t h ih =>
      rw [spliced_cons p h, joinsLength_cons h]
      rfl

/-- The glyphs of a text spell it without its line joins. -/
theorem spelling_spliced (p : Pos) (t : Text) : spelling (spliced p t).2 = unsplice t := by
  induction p, t using spliced_induction with
  | nil p => rfl
  | crlf p t ih =>
      rw [spliced_crlf]
      exact ih
  | join p b t h ih => rw [spliced_join p h, unsplice_join h, ← ih]
  | byte p b t h ih => rw [spliced_cons p h, unsplice_cons h, ← ih, spelling_cons]

theorem endsLine_of_append {b : UInt8} {u v : Text} (h : Pos.endsLine b (u ++ v) = true) :
    Pos.endsLine b u = true := by
  cases u with
  | cons c u => exact h
  | nil =>
      simp only [Pos.endsLine, Bool.or_eq_true, beq_iff_eq, Bool.and_eq_true] at h ⊢
      exact h.imp_right fun h => ⟨h.1, rfl⟩

theorem joinFirst_of_append {b : UInt8} {u v : Text} (h : joinFirst (b :: (u ++ v)) = false) :
    joinFirst (b :: u) = false := by
  cases u with
  | nil => rfl
  | cons c u => exact h

/-- The source of the first glyphs of a text, read on its own, has the same line joins. -/
theorem unsplice_sources_spliced {p : Pos} {t : Text} {gs rest : List Glyph}
    (h : (spliced p t).2 = gs ++ rest) :
    unsplice ((spliced p t).1 ++ gs.flatMap source) = spelling gs := by
  induction p, t using spliced_induction generalizing gs with
  | nil p =>
      have hn : gs ++ rest = [] := h.symm
      rw [(List.append_eq_nil_iff.1 hn).1]
      rfl
  | crlf p t ih =>
      rw [spliced_crlf] at h ⊢
      exact ih h
  | join p b t hb ih =>
      rw [spliced_join p hb] at h ⊢
      have hb' : Pos.endsLine b ((spliced p.right.newLine t).1 ++ gs.flatMap source) = true := by
        refine endsLine_of_append (v := rest.flatMap source) ?_
        rw [List.append_assoc, ← List.flatMap_append, ← h, sources_spliced]
        exact hb
      rw [List.cons_append, List.cons_append, unsplice_join hb', ih h]
  | byte p b t hb ih =>
      rw [spliced_cons p hb] at h ⊢
      cases gs with
      | nil => rfl
      | cons g gs =>
          obtain ⟨rfl, hr⟩ : _ = g ∧ (spliced (p.after b t) t).2 = gs ++ rest :=
            List.cons.inj h
          have hj :
              joinFirst (b :: ((spliced (p.after b t) t).1 ++ gs.flatMap source)) = false := by
            refine joinFirst_of_append (v := rest.flatMap source) ?_
            rw [List.append_assoc, ← List.flatMap_append, ← hr, sources_spliced]
            exact hb
          rw [List.flatMap_cons, source, List.nil_append, List.cons_append, unsplice_cons hj, ih hr,
            spelling_cons]

/-- The source of consecutive glyphs without its line joins is what they spell. -/
theorem Read.unsplice_sources {gs rest : List Glyph} (h : Read (gs ++ rest)) :
    unsplice (gs.flatMap source) = spelling gs := by
  obtain ⟨p, t, ht⟩ := h.without_joins
  simpa [ht] using unsplice_sources_spliced (congrArg Prod.snd ht)

theorem length_source (g : Glyph) : g.source.length = g.length := by
  rw [source, List.length_cons, length, Nat.add_comm]

theorem length_sources (gs : List Glyph) : (gs.flatMap source).length = totalLength gs := by
  induction gs with
  | nil => rfl
  | cons g gs ih => rw [List.flatMap_cons, List.length_append, length_source, ih, totalLength]

/-- Glyphs that lie one behind the other from an offset on. -/
def PlacedFrom (offset : Int) : List Glyph → Prop
  | [] => True
  | g :: gs => g.pos.offset = offset ∧ PlacedFrom (offset + g.length) gs

theorem PlacedFrom.of_append {offset : Int} {gs hs : List Glyph}
    (h : PlacedFrom offset (gs ++ hs)) : PlacedFrom (offset + totalLength gs) hs := by
  induction gs generalizing offset with
  | nil => simpa [totalLength] using h
  | cons g gs ih => simpa [totalLength, Int.add_assoc] using ih h.2

theorem offset_after (p : Pos) (b : UInt8) (t : Text) : (p.after b t).offset = p.offset + 1 := by
  unfold Pos.after
  split <;> rfl

theorem placedFrom_spliced (p : Pos) (t : Text) :
    PlacedFrom (p.offset + (spliced p t).1.length) (spliced p t).2 := by
  induction p, t using spliced_induction with
  | nil p => trivial
  | crlf p t ih =>
      rw [spliced_crlf]
      have ho : p.offset + ((spliced p.right.right.newLine t).1.length + 3 : Nat) =
          p.right.right.newLine.offset + (spliced p.right.right.newLine t).1.length := by
        simp only [Pos.right, Pos.newLine]
        omega
      exact ho ▸ ih
  | join p b t h ih =>
      rw [spliced_join p h]
      have ho : p.offset + ((spliced p.right.newLine t).1.length + 2 : Nat) =
          p.right.newLine.offset + (spliced p.right.newLine t).1.length := by
        simp only [Pos.right, Pos.newLine]
        omega
      exact ho ▸ ih
  | byte p b t h ih =>
      rw [spliced_cons p h]
      refine ⟨by simp, ?_⟩
      have ho : p.offset + (0 : Nat) + (1 + (spliced (p.after b t) t).1.length : Nat) =
          (p.after b t).offset + (spliced (p.after b t) t).1.length := by
        rw [offset_after]
        omega
      exact ho ▸ ih

end Glyph
end CPreprocessor

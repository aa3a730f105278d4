import CPreprocessor.Source.Glyph

/-!
How line joins fall when a text is put together from parts. A part that begins with no
join, and with no line break behind a backslash, is read after another part as it is read
alone, so the glyphs of the whole are those of the parts. The source bytes of consecutive glyphs
give the same glyphs again, except for the joins behind the last one.
-/

namespace CPreprocessor
namespace Glyph

/-- Whether a text begins with a line join. -/
def joinFirst : Text → Bool
  | a :: b :: _ => a == Byte.backslash && Byte.isLineBreak b
  | _ => false

/-- A text that nothing before it can make part of a line join, and that begins with none. -/
def Detached (t : Text) : Prop :=
  joinFirst t = false ∧ ∀ b ∈ t.head?, Byte.isLineBreak b = false

theorem spliced_crlf (p : Pos) (t : Text) :
    spliced p (Byte.backslash :: Byte.carriageReturn :: Byte.lineFeed :: t) =
      (Byte.backslash :: Byte.carriageReturn :: Byte.lineFeed ::
        (spliced p.right.right.newLine t).1, (spliced p.right.right.newLine t).2) :=
  spliced.eq_2 p t

theorem spliced_join {b : UInt8} {t : Text} (p : Pos) (h : Pos.endsLine b t = true) :
    spliced p (Byte.backslash :: b :: t) =
      (Byte.backslash :: b :: (spliced p.right.newLine t).1, (spliced p.right.newLine t).2) := by
  simp only [Pos.endsLine, Bool.or_eq_true, beq_iff_eq, Bool.and_eq_true, bne_iff_ne] at h
  obtain rfl | ⟨rfl, ht⟩ := h
  · exact spliced.eq_3 p t
  · refine spliced.eq_4 p t ?_
    rintro t' rfl
    exact ht rfl

theorem spliced_cons {b : UInt8} {t : Text} (p : Pos) (h : joinFirst (b :: t) = false) :
    spliced p (b :: t) =
      ([], ⟨b, p, (spliced (p.after b t) t).1⟩ :: (spliced (p.after b t) t).2) := by
  rw [spliced]
  · rintro t' rfl rfl
    simp [joinFirst, Byte.isLineBreak] at h
  · rintro t' rfl rfl
    simp [joinFirst, Byte.isLineBreak] at h
  · rintro t' rfl rfl
    simp [joinFirst, Byte.isLineBreak] at h

/-- Induction along the reading of a text: a join of three bytes, a join of two, or a byte
that begins no join. -/
theorem spliced_induction {motive : Pos → Text → Prop} (nil : ∀ p, motive p [])
    (crlf : ∀ p t, motive p.right.right.newLine t →
      motive p (Byte.backslash :: Byte.carriageReturn :: Byte.lineFeed :: t))
    (join : ∀ p b t, Pos.endsLine b t = true → motive p.right.newLine t →
      motive p (Byte.backslash :: b :: t))
    (byte : ∀ p b t, joinFirst (b :: t) = false → motive (p.after b t) t → motive p (b :: t))
    (p : Pos) (t : Text) : motive p t := by
  fun_induction spliced p t with
  | case1 p => exact nil p
  | case2 p t _ _ _ ih => exact crlf p t ih
  | case3 p t _ _ _ ih => exact join p Byte.lineFeed t rfl ih
  | case4 p t ht _ _ _ ih =>
      refine join p Byte.carriageReturn t ?_ ih
      cases t with
      | nil => rfl
      | cons c t =>
          have hc : c ≠ Byte.lineFeed := fun hc => ht t (congrArg (· :: t) hc)
          simp [Pos.endsLine, hc]
  | case5 p b t _ h₂ h₃ _ _ _ ih =>
      refine byte p b t ?_ ih
      cases t with
      | nil => rfl
      | cons c t =>
          have hlf : b = Byte.backslash → c ≠ Byte.lineFeed :=
            fun hb hc => h₂ t hb (congrArg (· :: t) hc)
          have hcr : b = Byte.backslash → c ≠ Byte.carriageReturn :=
            fun hb hc => h₃ t hb (congrArg (· :: t) hc)
          by_cases hb : b = Byte.backslash
          · simp [joinFirst, Byte.isLineBreak, hlf hb, hcr hb]
          · simp [joinFirst, hb]

theorem spliced_fst_of_joinFirst (p : Pos) {t : Text} (h : joinFirst t = false) :
    (spliced p t).1 = [] := by
  cases t with
  | nil => rfl
  | cons b t => rw [spliced_cons p h]

theorem detached_of_spliced {p : Pos} {t : Text} {g : Glyph} {gs : List Glyph}
    (h : spliced p t = ([], g :: gs)) (hg : Byte.isLineBreak g.byte = false) : Detached t := by
  induction p, t using spliced_induction with
  | nil p => cases h
  | crlf p t _ =>
      rw [spliced_crlf] at h
      cases h
  | join p b t hb _ =>
      rw [spliced_join p hb] at h
      cases h
  | byte p b t hb _ =>
      rw [spliced_cons p hb] at h
      cases h
      refine ⟨hb, fun c hc => ?_⟩
      cases hc
      exact hg

/-- The joins in front and the source bytes of the glyphs are the text. -/
theorem sources_spliced (p : Pos) (t : Text) :
    (spliced p t).1 ++ (spliced p t).2.flatMap source = t := by
  induction p, t using spliced_induction with
  | nil p => rfl
  | crlf p t ih =>
      rw [spliced_crlf]
      simpa using ih
  | join p b t h ih =>
      rw [spliced_join p h]
      simpa using ih
  | byte p b t h ih =>
      rw [spliced_cons p h]
      simpa [source] using ih

/-- A text that is read behind `t` as it is read alone: it begins with no line join, and a line
break at its beginning forms neither a join nor a longer line break with the end of `t`. -/
structure Apart (t u : Text) : Prop where
  joinFirst : joinFirst u = false
  lineBreak : ∀ b ∈ u.head?, Byte.isLineBreak b = true →
    t.getLast? ≠ some Byte.backslash ∧ t.getLast? ≠ some Byte.carriageReturn

theorem Detached.apart {u : Text} (h : Detached u) (t : Text) : Apart t u where
  joinFirst := h.1
  lineBreak b hb hl := by
    rw [h.2 b hb] at hl
    cases hl

theorem Apart.tail {b : UInt8} {t u : Text} (h : Apart (b :: t) u) : Apart t u := by
  cases t with
  | nil => exact ⟨h.joinFirst, fun _ _ _ => by simp⟩
  | cons c t => exact ⟨h.joinFirst, h.lineBreak⟩

theorem endsLine_append {b : UInt8} {t u : Text} (h : Apart (b :: t) u) :
    Pos.endsLine b (t ++ u) = Pos.endsLine b t := by
  cases t with
  | cons c t => rfl
  | nil =>
      cases u with
      | nil => rfl
      | cons c u =>
          by_cases hc : c = Byte.lineFeed
          · obtain ⟨-, hb⟩ := h.lineBreak c rfl (by rw [hc]; decide)
            have hb : (b == Byte.carriageReturn) = false :=
              beq_false_of_ne fun he => hb (congrArg some he)
            simp only [Pos.endsLine, hb, Bool.false_and]
          · have hc : (some c != some Byte.lineFeed) = true :=
              bne_iff_ne.2 fun he => hc (Option.some.inj he)
            simp only [Pos.endsLine, List.nil_append, List.head?_cons, hc]
            rfl

theorem after_append {p : Pos} {b : UInt8} {t u : Text} (h : Apart (b :: t) u) :
    p.after b (t ++ u) = p.after b t := by
  rw [Pos.after, Pos.after, endsLine_append h]

theorem joinFirst_append {b : UInt8} {t u : Text} (h : Apart (b :: t) u) :
    joinFirst (b :: (t ++ u)) = joinFirst (b :: t) := by
  cases t with
  | cons c t => rfl
  | nil =>
      cases u with
      | nil => rfl
      | cons c u =>
          by_cases hc : Byte.isLineBreak c = true
          · have hb : b ≠ Byte.backslash := fun he => (h.lineBreak c rfl hc).1 (congrArg some he)
            simp [joinFirst, hb]
          · simp [joinFirst, hc]

theorem Apart.not_joinFirst_append {t u : Text} (h : Apart t u) (ht : Glyph.joinFirst t = false) :
    Glyph.joinFirst (t ++ u) = false := by
  cases t with
  | nil => exact h.joinFirst
  | cons b t => rw [List.cons_append, Glyph.joinFirst_append h, ht]

theorem joinFirst_of_ne {b : UInt8} (h : b ≠ Byte.backslash) (t : Text) :
    joinFirst (b :: t) = false := by
  cases t with
  | nil => rfl
  | cons c t => simp [joinFirst, h]

theorem Apart.spliced_append (p : Pos) {t u : Text} (hu : Apart t u) :
    spliced p (t ++ u) =
      ((spliced p t).1, (spliced p t).2 ++ (spliced (p.atEnd t) u).2) := by
  induction p, t using spliced_induction with
  | nil p =>
      change spliced p u = ([], (spliced p u).2)
      rw [← spliced_fst_of_joinFirst p hu.joinFirst]
  | crlf p t ih =>
      rw [List.cons_append, List.cons_append, List.cons_append, spliced_crlf, spliced_crlf,
        ih hu.tail.tail.tail]
      rfl
  | join p b t h ih =>
      have he : p.atEnd (Byte.backslash :: b :: t) = p.right.newLine.atEnd t := by
        simp only [Pos.atEnd, Pos.after, h]
        rfl
      rw [List.cons_append, List.cons_append, spliced_join p h,
        spliced_join p ((endsLine_append hu.tail).trans h), ih hu.tail.tail, he]
  | byte p b t h ih =>
      rw [List.cons_append, spliced_cons p h,
        spliced_cons p ((joinFirst_append hu).trans h), after_append hu, ih hu.tail]
      rfl

theorem spliced_append (p : Pos) (t : Text) {u : Text} (hu : Detached u) :
    spliced p (t ++ u) =
      ((spliced p t).1, (spliced p t).2 ++ (spliced (p.atEnd t) u).2) :=
  (hu.apart t).spliced_append p

/-- A text without line breaks has no joins. -/
theorem spliced_of_no_break (p : Pos) {t : Text} (h : ∀ b ∈ t, Byte.isLineBreak b = false) :
    spliced p t = ([], plain p t) := by
  induction t generalizing p with
  | nil => rfl
  | cons b t ih =>
      have ht := fun c hc => h c (List.mem_cons_of_mem b hc)
      have hj : joinFirst (b :: t) = false := by
        cases t with
        | nil => rfl
        | cons c t => simp [joinFirst, ht c List.mem_cons_self]
      rw [spliced_cons p hj, ih (p.after b t) ht, plain]

@[simp] theorem spelling_append (gs hs : List Glyph) :
    spelling (gs ++ hs) = spelling gs ++ spelling hs :=
  List.map_append

@[simp] theorem spelling_cons (g : Glyph) (gs : List Glyph) :
    spelling (g :: gs) = g.byte :: spelling gs :=
  rfl

@[simp] theorem spelling_plain (p : Pos) (t : Text) : spelling (plain p t) = t := by
  induction t generalizing p with
  | nil => rfl
  | cons b t ih => rw [plain, spelling_cons, ih]

/-- Glyphs as they are read from some text. -/
def Read (gs : List Glyph) : Prop :=
  ∃ p t, (spliced p t).2 = gs

/-- The joins in front of the first glyph can be left out of the text. -/
theorem Read.without_joins {gs : List Glyph} (h : Read gs) :
    ∃ p t, spliced p t = ([], gs) := by
  obtain ⟨p, t, rfl⟩ := h
  induction p, t using spliced_induction with
  | nil p => exact ⟨p, [], rfl⟩
  | crlf p t ih => rwa [spliced_crlf]
  | join p b t h ih => rwa [spliced_join p h]
  | byte p b t h ih => exact ⟨p, b :: t, by rw [spliced_cons p h]⟩

theorem Read.tail {g : Glyph} {gs : List Glyph} (h : Read (g :: gs)) : Read gs := by
  obtain ⟨p, t, ht⟩ := h
  induction p, t using spliced_induction with
  | nil p => cases ht
  | crlf p t ih =>
      rw [spliced_crlf] at ht
      exact ih ht
  | join p b t h ih =>
      rw [spliced_join p h] at ht
      exact ih ht
  | byte p b t h ih =>
      rw [spliced_cons p h] at ht
      exact ⟨p.after b t, t, (List.cons.inj ht).2⟩

theorem Read.of_append {gs hs : List Glyph} (h : Read (gs ++ hs)) : Read hs := by
  induction gs with
  | nil => exact h
  | cons g gs ih => exact ih h.tail

/-- Two glyph sequences of the same bytes with the same line joins between them. The joins
behind the last glyphs may differ. -/
inductive Alike : List Glyph → List Glyph → Prop where
  | last {g h : Glyph} : g.byte = h.byte → Alike [g] [h]
  | cons {g h : Glyph} {gs hs : List Glyph} : g.byte = h.byte → g.splices = h.splices →
      Alike gs hs → Alike (g :: gs) (h :: hs)

theorem Alike.refl {gs : List Glyph} (h : gs ≠ []) : Alike gs gs := by
  induction gs with
  | nil => contradiction
  | cons g gs ih =>
      by_cases hgs : gs = []
      · exact hgs ▸ .last rfl
      · exact .cons rfl rfl (ih hgs)

theorem verbatim_cons (g : Glyph) {gs : List Glyph} (h : gs ≠ []) :
    verbatim (g :: gs) = g.source ++ verbatim gs := by
  cases gs with
  | nil => contradiction
  | cons _ _ => rfl

theorem Alike.verbatim_eq {gs hs : List Glyph} (h : Alike gs hs) : verbatim gs = verbatim hs := by
  induction h with
  | last hb => simp [verbatim, hb]
  | @cons g h gs hs hb hs' ha ih =>
      have hgs : gs ≠ [] := by rintro rfl; cases ha
      have hhs : hs ≠ [] := by rintro rfl; cases ha
      rw [verbatim_cons g hgs, verbatim_cons h hhs, ih, source, source, hb, hs']

theorem head?_verbatim {p : Pos} {t : Text} {gs rest : List Glyph}
    (h : (spliced p t).2 = gs ++ rest) (hgs : gs ≠ []) :
    ((spliced p t).1 ++ verbatim gs).head? = t.head? := by
  have hs := sources_spliced p t
  cases gs with
  | nil => contradiction
  | cons g gs =>
      rw [h] at hs
      cases hl : (spliced p t).1 with
      | cons a l => rw [← hs, hl]; rfl
      | nil =>
          rw [← hs, hl]
          cases gs <;> rfl

/-- Read on its own, the source of consecutive glyphs gives glyphs like them. -/
theorem spliced_verbatim {p : Pos} {t : Text} {gs rest : List Glyph}
    (h : (spliced p t).2 = gs ++ rest) (hgs : gs ≠ []) (q : Pos) :
    (spliced q ((spliced p t).1 ++ verbatim gs)).1 = (spliced p t).1 ∧
      Alike (spliced q ((spliced p t).1 ++ verbatim gs)).2 gs := by
  induction p, t using spliced_induction generalizing gs q with
  | nil p =>
      have hn : gs ++ rest = [] := h.symm
      exact absurd (List.append_eq_nil_iff.1 hn).1 hgs
  | crlf p t ih =>
      rw [spliced_crlf] at h ⊢
      obtain ⟨hl, ha⟩ := ih h hgs q.right.right.newLine
      simp only [List.cons_append, spliced_crlf]
      exact ⟨congrArg (_ :: _ :: _ :: ·) hl, ha⟩
  | join p b t hb ih =>
      rw [spliced_join p hb] at h ⊢
      obtain ⟨hl, ha⟩ := ih h hgs q.right.newLine
      have hb' : Pos.endsLine b ((spliced p.right.newLine t).1 ++ verbatim gs) = true := by
        rw [Pos.endsLine, head?_verbatim h hgs]
        exact hb
      simp only [List.cons_append, spliced_join q hb']
      exact ⟨congrArg (_ :: _ :: ·) hl, ha⟩
  | byte p b t hb ih =>
      rw [spliced_cons p hb] at h ⊢
      cases gs with
      | nil => contradiction
      | cons g gs =>
          obtain ⟨rfl, hr⟩ := List.cons.inj h
          by_cases hgs' : gs = []
          · subst hgs'
            simp only [verbatim, List.nil_append, spliced_cons q (b := b) (t := []) rfl]
            exact ⟨trivial, .last rfl⟩
          · obtain ⟨hl, ha⟩ :=
              ih hr hgs' (q.after b ((spliced (p.after b t) t).1 ++ verbatim gs))
            have hb' : joinFirst (b :: ((spliced (p.after b t) t).1 ++ verbatim gs)) = false := by
              have hh := head?_verbatim hr hgs'
              generalize (spliced (p.after b t) t).1 ++ verbatim gs = u at hh ⊢
              cases u <;> cases t <;> simp_all [joinFirst]
            simp only [verbatim_cons _ hgs', source, List.cons_append, List.nil_append,
              spliced_cons q hb']
            exact ⟨trivial, .cons rfl hl ha⟩

/-- The source of consecutive glyphs that were read from a text, read again. -/
theorem Read.spliced_verbatim {gs rest : List Glyph} (h : Read (gs ++ rest)) (hgs : gs ≠ [])
    (q : Pos) :
    (spliced q (verbatim gs)).1 = [] ∧ Alike (spliced q (verbatim gs)).2 gs := by
  obtain ⟨p, t, ht⟩ := h.without_joins
  simpa [ht] using Glyph.spliced_verbatim (congrArg Prod.snd ht) hgs q

end Glyph
end CPreprocessor

import CPreprocessor.Printer
import CPreprocessor.Proofs.Lexer.Spelling

/-!
A spelling is recognised wherever it stands, as long as what follows cannot extend it. The
condition on what follows is stated for each kind; a literal ends by itself and needs none.
-/

namespace CPreprocessor

/-- Whether the bytes `r` after a token of kind `k` and text `t` leave it as it is. -/
def Stops : Kind → Text → Text → Prop
  | .identifier, t, r => ∀ c ∈ r.head?, Byte.isIdent c = false ∧
      (Vocabulary.isEncoding t = true → c ≠ Byte.quote ∧ c ≠ Byte.apostrophe)
  | .number, t, r => ∀ c ∈ r.head?, Byte.isIdent c = false ∧ c ≠ '.'.toUInt8 ∧
      c ≠ Byte.apostrophe ∧ (Byte.isSign c = true → Printer.endsInExponent t = false)
  | .punctuator, t, r =>
      (∀ p ∈ Vocabulary.punctuators, t <+: p → p <+: t ++ r → p = t) ∧
      (t = ascii "/" → ∀ c ∈ r.head?, c ≠ '/'.toUInt8 ∧ c ≠ '*'.toUInt8) ∧
      (t = ascii "." → ∀ c ∈ r.head?, Byte.isDigit c = false)
  | _, _, _ => True

namespace Lexer

open Spelling Glyph

/-- A number does not go on with a sign by itself. -/
theorem not_isSign_of_numberTail {b : UInt8} {t : Text} (h : NumberTail (b :: t)) :
    Byte.isSign b = false := by
  rw [Bool.eq_false_iff]
  intro hs
  obtain ⟨hi, hdot, hapos, -⟩ := Byte.of_isSign hs
  cases h with
  | exponent he _ _ => simp [Byte.isIdent_of_isExponent he] at hi
  | plain hb _ => simp [hi, hdot] at hb
  | separated _ _ => exact hapos rfl

theorem numberTail_stop (stop : Pos) {rest : List Glyph}
    (hr : ∀ c ∈ (spelling rest).head?, Byte.isIdent c = false ∧ c ≠ '.'.toUInt8 ∧
      c ≠ Byte.apostrophe) : numberTail stop rest = .ok ⟨[], rest⟩ := by
  cases rest with
  | nil => rfl
  | cons g rest =>
      obtain ⟨hi, hdot, hapos⟩ := hr g.byte rfl
      have he : Byte.isExponent g.byte = false := by
        rw [Bool.eq_false_iff]
        intro he
        simp [Byte.isIdent_of_isExponent he] at hi
      cases rest <;> simp [numberTail, hi, hdot, hapos, he]

theorem stops_number_tail {b : UInt8} {t r : Text} (h : Stops .number (b :: t) r) :
    Stops .number t r := by
  intro c hc
  obtain ⟨hi, hdot, hapos, hs⟩ := h c hc
  refine ⟨hi, hdot, hapos, fun hc => ?_⟩
  cases t with
  | nil => rfl
  | cons d t => simpa [Printer.endsInExponent] using hs hc

theorem numberTail_complete {t : Text} (h : NumberTail t) (stop : Pos) {gs rest : List Glyph}
    (hs : spelling gs = t) (hr : Stops .number t (spelling rest)) :
    numberTail stop (gs ++ rest) = .ok ⟨gs, rest⟩ := by
  induction h generalizing gs with
  | nil =>
      obtain rfl : gs = [] := List.map_eq_nil_iff.1 hs
      exact numberTail_stop stop fun c hc => ⟨(hr c hc).1, (hr c hc).2.1, (hr c hc).2.2.1⟩
  | exponent he hsg ht ih =>
      obtain ⟨g, gs, rfl, rfl, hs₁⟩ := List.map_eq_cons_iff.1 hs
      obtain ⟨h, gs, rfl, rfl, hs₂⟩ := List.map_eq_cons_iff.1 hs₁
      have := ih hs₂ (stops_number_tail (stops_number_tail hr))
      simp only [List.cons_append, numberTail, he, hsg, Bool.and_self, if_true, this]
      rfl
  | plain hb ht ih =>
      obtain ⟨g, gs, rfl, rfl, hs₁⟩ := List.map_eq_cons_iff.1 hs
      have hi := ih hs₁ (stops_number_tail hr)
      have hsign : ∀ h tl, gs ++ rest = h :: tl →
          (Byte.isExponent g.byte && Byte.isSign h.byte) = false := by
        intro h tl htl
        cases gs with
        | cons h' gs =>
            obtain ⟨rfl, rfl⟩ := List.cons.inj htl
            subst hs₁
            simp [not_isSign_of_numberTail ht]
        | nil =>
            obtain rfl : rest = h :: tl := htl
            subst hs₁
            rw [Bool.and_eq_false_imp]
            intro he
            rw [Bool.eq_false_iff]
            intro hsg
            have := (hr h.byte rfl).2.2.2 hsg
            simp [Printer.endsInExponent, he] at this
      cases htl : gs ++ rest with
      | nil =>
          obtain ⟨rfl, rfl⟩ := List.append_eq_nil_iff.1 htl
          simp only [List.cons_append, List.nil_append, numberTail, hb, if_true]
      | cons h tl =>
          rw [htl] at hi
          simp only [List.cons_append, htl, numberTail, hsign h tl htl, hb, if_true, hi]
          rfl
  | separated hb ht ih =>
      obtain ⟨g, gs, rfl, hg, hs₁⟩ := List.map_eq_cons_iff.1 hs
      obtain ⟨h, gs, rfl, rfl, hs₂⟩ := List.map_eq_cons_iff.1 hs₁
      have := ih hs₂ (stops_number_tail (stops_number_tail hr))
      have ha : Byte.isIdent Byte.apostrophe = false ∧ Byte.isExponent Byte.apostrophe = false ∧
          (Byte.apostrophe == '.'.toUInt8) = false := by decide
      simp only [List.cons_append, numberTail, hg, ha, hb, Bool.false_and, Bool.false_or, if_true,
        this]
      rfl

theorem literalTail_complete {k : Kind} {mark : UInt8} (hm : Quotes k mark) {t : Text}
    (h : LiteralTail mark t) (stop : Pos) {gs : List Glyph} (rest : List Glyph)
    (hs : spelling gs = t) :
    literalTail false stop mark (gs ++ rest) = .closed ⟨gs, rest⟩ := by
  have hb : Byte.backslash ≠ mark ∧ Byte.isLineBreak Byte.backslash = false := by
    cases hm <;> decide
  induction h generalizing gs with
  | close =>
      obtain ⟨g, gs, rfl, hg, hs⟩ := List.map_eq_cons_iff.1 hs
      obtain rfl : gs = [] := List.map_eq_nil_iff.1 hs
      cases rest <;> simp [literalTail, hg]
  | plain hne hlb hbs ht ih =>
      obtain ⟨g, gs, rfl, rfl, hs₁⟩ := List.map_eq_cons_iff.1 hs
      have hi := ih hs₁
      cases htl : gs ++ rest with
      | nil =>
          rw [htl] at hi
          cases hi
      | cons h tl =>
          rw [htl] at hi
          simp only [List.cons_append, htl, literalTail, hne, hlb, hbs,
            Bool.false_eq_true, if_false, hi]
          rfl
  | escape he ht ih =>
      obtain ⟨g, gs, rfl, hg, hs₁⟩ := List.map_eq_cons_iff.1 hs
      obtain ⟨h, gs, rfl, rfl, hs₂⟩ := List.map_eq_cons_iff.1 hs₁
      simp only [List.cons_append, literalTail, hg, hb, he, if_true, Bool.false_eq_true, if_false,
        ih hs₂]
      rfl
  | numeric hn he ht ih =>
      obtain ⟨g, gs, rfl, hg, hs₁⟩ := List.map_eq_cons_iff.1 hs
      obtain ⟨h, gs, rfl, rfl, rfl⟩ := List.map_eq_cons_iff.1 hs₁
      have hi := ih hs₁
      rw [List.cons_append] at hi
      have hesc : escapeError stop h (gs ++ rest) = none := by
        rw [escapeError_eq_none, spelling_append]
        exact escapes_append _ he
      simp only [List.cons_append, literalTail, hg, hb, hn, if_true, Bool.false_eq_true, if_false,
        hesc, hi]
      rfl

theorem spanning_complete {p : UInt8 → Bool} {gs rest : List Glyph}
    (hs : ∀ b ∈ spelling gs, p b = true) (hr : ∀ c ∈ (spelling rest).head?, p c = false) :
    Cut.spanning p (gs ++ rest) = ⟨gs, rest⟩ := by
  induction gs with
  | nil =>
      cases rest with
      | nil => rfl
      | cons g rest =>
          have hg : p g.byte = false := hr g.byte rfl
          simp [Cut.spanning, hg]
  | cons g gs ih =>
      have hg : p g.byte = true := hs g.byte List.mem_cons_self
      have := ih fun b hb => hs b (List.mem_cons_of_mem _ hb)
      simp only [List.cons_append, Cut.spanning, hg, if_true, this]
      rfl

theorem identLexeme_complete {gs rest : List Glyph}
    (hs : ∀ b ∈ spelling gs, Byte.isIdent b = true)
    (hr : Stops .identifier (spelling gs) (spelling rest)) :
    identLexeme (gs ++ rest) =
      { kind := .identifier, text := spelling gs, cut := ⟨gs, rest⟩ } := by
  rw [identLexeme, spanning_complete hs fun c hc => (hr c hc).1]
  rfl

theorem isIdent_of_mem_letters {letters : Text}
    (h : letters ∈ rawLetters ∨ letters ∈ charsets) :
    ∀ b ∈ letters, Byte.isIdent b = true := by
  have hall : ((rawLetters ++ charsets).all fun l => l.all Byte.isIdent) = true := by decide
  exact List.all_eq_true.1 (List.all_eq_true.1 hall letters (List.mem_append.2 h))

theorem isEncoding_of_mem_letters {letters : Text} (hn : letters ≠ [])
    (h : letters ∈ rawLetters ∨ letters ∈ charsets) :
    Vocabulary.isEncoding letters = true := by
  have hr : ∀ l ∈ rawLetters, Vocabulary.isEncoding l = true := by decide
  have hc : ∀ l ∈ charsets, l ≠ [] → Vocabulary.isEncoding l = true := by decide
  exact h.elim (hr letters) fun hl => hc letters hl hn

/-- A name is not taken for the letters of a literal. -/
theorem encodedLexeme_ident {stop : Pos} {g : Glyph} {gs rest : List Glyph}
    (hg : (ascii "uULR").contains g.byte = true)
    (hs : ∀ b ∈ spelling (g :: gs), Byte.isIdent b = true)
    (hr : Stops .identifier (spelling (g :: gs)) (spelling rest)) :
    encodedLexeme false stop g (gs ++ rest) = .ok (identLexeme (g :: (gs ++ rest))) := by
  have hw := whole_encoding g (gs ++ rest)
  have hn := taken_encoding_ne_nil g (gs ++ rest)
  have hl := encoding_sound (gs ++ rest) hg
  unfold encodedLexeme
  rcases he : encoding g (gs ++ rest) with ⟨letters, raw⟩
  simp only [he] at hw hn hl ⊢
  have hl : spelling letters.taken ∈ rawLetters ∨ spelling letters.taken ∈ charsets := by
    cases raw
    · exact .inr hl
    · exact .inl hl
  split
  · rename_i q t ht
    rw [Cut.whole, ht, ← List.cons_append] at hw
    have hq : ¬(q.byte = Byte.quote ∨ q.byte = Byte.apostrophe) := by
      intro hq
      have hqi : Byte.isIdent q.byte = false := by obtain hq | hq := hq <;> rw [hq] <;> decide
      obtain ⟨a, ha, hqa⟩ | ⟨c, hc, hrc⟩ := List.append_eq_append_iff.1 hw
      · cases a with
        | nil =>
            rw [List.append_nil] at ha
            have henc := isEncoding_of_mem_letters (by simpa [spelling] using hn) hl
            rw [← ha] at henc
            obtain rfl : q :: t = rest := hqa
            have := (hr q.byte rfl).2 henc
            exact hq.elim this.1 this.2
        | cons q' a =>
            obtain ⟨rfl, -⟩ := List.cons.inj hqa
            have := hs q.byte (by rw [ha]; simp [spelling])
            simp [hqi] at this
      · cases c with
        | nil =>
            rw [List.append_nil] at hc
            have henc := isEncoding_of_mem_letters (by simpa [spelling] using hn) hl
            rw [hc] at henc
            obtain rfl : rest = q :: t := hrc
            have := (hr q.byte rfl).2 henc
            exact hq.elim this.1 this.2
        | cons c' c =>
            subst hrc
            have h₁ := (hr c'.byte rfl).1
            have h₂ := isIdent_of_mem_letters hl c'.byte (by rw [hc]; simp [spelling])
            simp [h₁] at h₂
    simp only [not_or] at hq
    simp [hq.1, hq.2]
  · rfl

/-- Encoding letters in front of a quote are taken as such. -/
theorem encoding_complete {letters : List Glyph} {q : Glyph} (gs : List Glyph)
    (hl : spelling letters ∈ charsets) (hn : letters ≠ [])
    (hq : q.byte = Byte.quote ∨ q.byte = Byte.apostrophe) :
    ∃ g hs, letters = g :: hs ∧ (ascii "uULR").contains g.byte = true ∧
      encoding g (hs ++ q :: gs) = (⟨letters, q :: gs⟩, false) := by
  have hq8 : q.byte ≠ '8'.toUInt8 := by obtain hq | hq := hq <;> rw [hq] <;> decide
  have hqR : q.byte ≠ 'R'.toUInt8 := by obtain hq | hq := hq <;> rw [hq] <;> decide
  have hb : spelling letters = ascii "u8" ∨ ∃ b ∈ ascii "uUL", spelling letters = [b] := by
    have hc :
        ∀ l ∈ charsets, l ≠ [] → l = ascii "u8" ∨ ∃ b ∈ ascii "uUL", l = [b] := by
      decide
    exact hc _ hl (by simpa [spelling] using hn)
  obtain hb | ⟨b, hb, hbl⟩ := hb
  · obtain ⟨g, hs, rfl, hg, hs₁⟩ := List.map_eq_cons_iff.1 hb
    obtain ⟨h, hs, rfl, hh, hs₂⟩ := List.map_eq_cons_iff.1 hs₁
    obtain rfl : hs = [] := List.map_eq_nil_iff.1 hs₂
    refine ⟨g, [h], rfl, by rw [hg]; decide, ?_⟩
    have hgR : g.byte ≠ 'R'.toUInt8 := by rw [hg]; decide
    have hc : charset g (h :: q :: gs) = ⟨[g, h], q :: gs⟩ := by
      rw [charset, if_pos ⟨hg, hh⟩]
    simp [encoding, hgR, hc, hqR]
  · obtain ⟨g, hs, rfl, rfl, hs₁⟩ := List.map_eq_cons_iff.1 hbl
    obtain rfl : hs = [] := List.map_eq_nil_iff.1 hs₁
    refine ⟨g, [], rfl, List.contains_iff_mem.2 (mem_letters_iff.2 (.inl hb)), ?_⟩
    have hc : charset g (q :: gs) = ⟨[g], q :: gs⟩ := by
      simp [charset, hq8]
    simp [encoding, ne_of_mem_letters hb, hc, hqR]

theorem encoding_complete_raw {letters : List Glyph} (q : Glyph) (gs : List Glyph)
    (hl : spelling letters ∈ rawLetters) :
    ∃ g hs, letters = g :: hs ∧ (ascii "uULR").contains g.byte = true ∧
      encoding g (hs ++ q :: gs) = (⟨letters, q :: gs⟩, true) := by
  have hb : ∀ l ∈ rawLetters, l = ascii "R" ∨ l = ascii "u8R" ∨
      ∃ b ∈ ascii "uUL", l = b :: ascii "R" := by decide
  obtain hb | hb | ⟨b, hb, hbl⟩ := hb _ hl
  · obtain ⟨g, hs, rfl, hg, hs₁⟩ := List.map_eq_cons_iff.1 hb
    obtain rfl : hs = [] := List.map_eq_nil_iff.1 hs₁
    have hg' : g.byte = 'R'.toUInt8 := hg
    exact ⟨g, [], rfl, by rw [hg]; decide, by simp [encoding, hg']⟩
  · obtain ⟨g, hs, rfl, hg, hs₁⟩ := List.map_eq_cons_iff.1 hb
    obtain ⟨h, hs, rfl, hh, hs₂⟩ := List.map_eq_cons_iff.1 hs₁
    obtain ⟨r, hs, rfl, hr, hs₃⟩ := List.map_eq_cons_iff.1 hs₂
    obtain rfl : hs = [] := List.map_eq_nil_iff.1 hs₃
    refine ⟨g, [h, r], rfl, by rw [hg]; decide, ?_⟩
    have hgR : g.byte ≠ 'R'.toUInt8 := by rw [hg]; decide
    have hr' : r.byte = 'R'.toUInt8 := hr
    have hc : charset g (h :: r :: q :: gs) = ⟨[g, h], r :: q :: gs⟩ := by
      rw [charset, if_pos ⟨hg, hh⟩]
    simp [encoding, hgR, hc, hr']
  · obtain ⟨g, hs, rfl, rfl, hs₁⟩ := List.map_eq_cons_iff.1 hbl
    obtain ⟨r, hs, rfl, hr, hs₂⟩ := List.map_eq_cons_iff.1 hs₁
    obtain rfl : hs = [] := List.map_eq_nil_iff.1 hs₂
    have hr' : r.byte = 'R'.toUInt8 := hr
    refine ⟨g, [r], rfl, List.contains_iff_mem.2 (mem_letters_iff.2 (.inl hb)), ?_⟩
    have hr8 : r.byte ≠ '8'.toUInt8 := by rw [hr']; decide
    have hc : charset g (r :: q :: gs) = ⟨[g], r :: q :: gs⟩ := by
      simp [charset, hr8]
    simp [encoding, ne_of_mem_letters hb, hc, hr']

theorem spelled_complete {gs : List Glyph} (rest : List Glyph) :
    Cut.spelled (spelling gs) (gs ++ rest) = some ⟨gs, rest⟩ := by
  induction gs with
  | nil => rfl
  | cons g gs ih =>
      simp only [List.cons_append, spelling_cons, Cut.spelled, if_true, ih]
      rfl

theorem isPrefix_of_spelled {t : Text} {gs : List Glyph} {c : Cut}
    (h : Cut.spelled t gs = some c) : t <+: spelling gs := by
  have hw := Cut.whole_of_spelled h
  refine ⟨spelling c.rest, ?_⟩
  rw [← spelled_eq_some h, ← spelling_append, ← hw]
  rfl

/-- The vocabulary lists its punctuators longest first, so the first that fits is the
longest. -/
theorem punctuators_pairwise :
    Vocabulary.punctuators.Pairwise fun p q => q.length ≤ p.length := by
  decide

theorem findSome?_punctuators {gs rest : List Glyph}
    (ht : spelling gs ∈ Vocabulary.punctuators)
    (hr : ∀ p ∈ Vocabulary.punctuators, spelling gs <+: p →
      p <+: spelling gs ++ spelling rest → p = spelling gs) :
    Vocabulary.punctuators.findSome? (fun p => Cut.spelled p (gs ++ rest)) =
      some ⟨gs, rest⟩ := by
  obtain ⟨as, bs, hl, hn⟩ := List.eq_append_cons_of_mem ht
  refine List.findSome?_eq_some_iff.2 ⟨as, spelling gs, bs, hl, spelled_complete rest, ?_⟩
  intro p hp
  have hpm : p ∈ Vocabulary.punctuators := hl ▸ List.mem_append_left _ hp
  have hlen : (spelling gs).length ≤ p.length := by
    have hpw := punctuators_pairwise
    rw [hl] at hpw
    exact (List.pairwise_append.1 hpw).2.2 p hp _ List.mem_cons_self
  cases hs : Cut.spelled p (gs ++ rest) with
  | none => rfl
  | some c =>
      have hpre := isPrefix_of_spelled hs
      rw [spelling_append] at hpre
      have := List.prefix_of_prefix_length_le (List.prefix_append _ _) hpre hlen
      exact absurd (hr p hpm this hpre ▸ hp) hn

theorem findSome?_punctuators_single {g : Glyph} {rest : List Glyph}
    (hr : ∀ p ∈ Vocabulary.punctuators, [g.byte] <+: p → p <+: [g.byte] ++ spelling rest →
      p = [g.byte]) :
    Vocabulary.punctuators.findSome? (fun p => Cut.spelled p (g :: rest)) = none := by
  have hlong : ∀ p ∈ Vocabulary.punctuators, 2 ≤ p.length := by decide
  rw [List.findSome?_eq_none_iff]
  intro p hp
  cases hs : Cut.spelled p (g :: rest) with
  | none => rfl
  | some c =>
      have hpre : p <+: [g.byte] ++ spelling rest := isPrefix_of_spelled hs
      have hlp := hlong p hp
      have := hr p hp
        (List.prefix_of_prefix_length_le (List.prefix_append _ _) hpre (by simp; omega)) hpre
      simp [this] at hlp

theorem noBreak_of_isIdentifier {t : Text} (h : IsIdentifier t) :
    ∀ b ∈ t, Byte.isIdent b = true := by
  cases t with
  | nil => cases h
  | cons a t =>
      intro b hb
      obtain rfl | hb := List.mem_cons.1 hb
      · exact Byte.isIdent_of_isIdentStart h.1
      · exact h.2 b hb

theorem noBreak_of_literalTail {k : Kind} {mark : UInt8} (hm : Quotes k mark) {t : Text}
    (h : LiteralTail mark t) : ∀ b ∈ t, Byte.isLineBreak b = false := by
  induction h with
  | close =>
      intro b hb
      obtain rfl := List.mem_singleton.1 hb
      cases hm <;> decide
  | plain _ hlb _ _ ih =>
      intro b hb
      obtain rfl | hb := List.mem_cons.1 hb
      · exact hlb
      · exact ih b hb
  | escape he _ ih =>
      intro b hb
      obtain rfl | hb := List.mem_cons.1 hb
      · decide
      · obtain rfl | hb := List.mem_cons.1 hb
        · exact not_isLineBreak_of_isSimpleEscape he
        · exact ih b hb
  | numeric _ _ _ ih =>
      intro b hb
      obtain rfl | hb := List.mem_cons.1 hb
      · decide
      · exact ih b hb

theorem lexeme_of_solidLexeme {stop : Pos} {g : Glyph} {gs : List Glyph} {r : Except Error Lexeme}
    (hlb : Byte.isLineBreak g.byte = false) (hbl : Byte.isBlank g.byte = false)
    (hc : comment (g :: gs) = .absent) (h : solidLexeme false stop g gs = r) :
    lexeme false stop g gs = r := by
  have hs : space (g :: gs) = some (.none (g :: gs)) := by
    rw [space, if_neg (by simp [hlb]), if_neg (by simp [hbl])]
    split <;> simp_all
  rw [lexeme, hs]
  exact h

theorem comment_absent {g : Glyph} {gs : List Glyph}
    (h : g.byte = '/'.toUInt8 → ∀ c ∈ (spelling gs).head?, c ≠ '/'.toUInt8 ∧
      c ≠ '*'.toUInt8) :
    comment (g :: gs) = .absent := by
  cases gs with
  | nil => rfl
  | cons h' gs =>
      have h₁ : ¬(g.byte = '/'.toUInt8 ∧ h'.byte = '*'.toUInt8) :=
        fun hb => (h hb.1 _ rfl).2 hb.2
      have h₂ : ¬(g.byte = '/'.toUInt8 ∧ h'.byte = '/'.toUInt8) :=
        fun hb => (h hb.1 _ rfl).1 hb.2
      rw [comment, if_neg h₁, if_neg h₂]

/-- A token that begins with a byte of identifiers, up to the choice of its scanner. -/
theorem lexeme_of_isIdent {stop : Pos} {g : Glyph} {gs : List Glyph} {r : Except Error Lexeme}
    (hg : Byte.isIdent g.byte = true) (h : solidLexeme false stop g gs = r) :
    lexeme false stop g gs = r := by
  obtain ⟨hlb, hbl, hsl, -⟩ := Byte.of_isIdent hg
  exact lexeme_of_solidLexeme hlb hbl (comment_absent fun hb => absurd hb hsl) h

theorem startsNumber_eq (gs : List Glyph) : startsNumber gs = numberFirst (spelling gs) := by
  match gs with
  | [] | [_] | _ :: _ :: _ => rfl

theorem startsNumber_eq_false {g : Glyph} {gs : List Glyph} (hd : Byte.isDigit g.byte = false)
    (hdot : g.byte = '.'.toUInt8 → ∀ c ∈ (spelling gs).head?, Byte.isDigit c = false) :
    startsNumber (g :: gs) = false := by
  cases gs with
  | nil => exact hd
  | cons h gs =>
      by_cases hb : g.byte = '.'.toUInt8
      · simp [startsNumber, hd, hdot hb h.byte rfl]
      · simp [startsNumber, hd, hb]

theorem numberFirst_append {t : Text} (u : Text) (h : numberFirst t = true) :
    numberFirst (t ++ u) = true := by
  match t, u with
  | [b], [] => exact h
  | [b], c :: u =>
      have hb : Byte.isDigit b = true := h
      simp [numberFirst, hb]
  | b :: c :: t, u => exact h

theorem isDigit_or_dot_of_numberFirst {b : UInt8} {t : Text} (h : numberFirst (b :: t) = true) :
    Byte.isDigit b = true ∨ b = '.'.toUInt8 := by
  cases t with
  | nil => exact .inl h
  | cons c t =>
      simp only [numberFirst, Bool.or_eq_true, Bool.and_eq_true, beq_iff_eq] at h
      exact h.imp_right And.left

/-- The lexeme of the glyphs of a token in front of others. -/
def takenLexeme (k : Kind) (t : Text) (gs rest : List Glyph) : Lexeme :=
  { kind := k, text := t, cut := ⟨gs, rest⟩ }

theorem lexeme_identifier {stop : Pos} {g : Glyph} {gs rest : List Glyph}
    (h : IsIdentifier (spelling (g :: gs)))
    (hr : Stops .identifier (spelling (g :: gs)) (spelling rest)) :
    lexeme false stop g (gs ++ rest) =
      .ok (takenLexeme .identifier (spelling (g :: gs)) (g :: gs) rest) := by
  have hi := noBreak_of_isIdentifier h
  have hid : identLexeme (g :: (gs ++ rest)) =
      takenLexeme .identifier (spelling (g :: gs)) (g :: gs) rest :=
    identLexeme_complete hi hr
  have hg := hi g.byte List.mem_cons_self
  obtain ⟨-, -, -, hq, ha, hdot, -⟩ := Byte.of_isIdent hg
  refine lexeme_of_isIdent hg ?_
  have hn : startsNumber (g :: (gs ++ rest)) = false :=
    startsNumber_eq_false (Byte.not_isDigit_of_isIdentStart h.1) fun hb => absurd hb hdot
  rw [solidLexeme, hn, if_neg Bool.false_ne_true]
  split
  · rename_i hu
    rw [encodedLexeme_ident hu hi hr, hid]
  · rw [if_pos h.1, hid]

theorem lexeme_number {stop : Pos} {g : Glyph} {gs rest : List Glyph}
    (h : IsNumber (spelling (g :: gs)))
    (hr : Stops .number (spelling (g :: gs)) (spelling rest)) :
    lexeme false stop g (gs ++ rest) =
      .ok (takenLexeme .number (spelling (g :: gs)) (g :: gs) rest) := by
  have hs : solidLexeme false stop g (gs ++ rest) =
      .ok (takenLexeme .number (spelling (g :: gs)) (g :: gs) rest) := by
    have hn : startsNumber (g :: (gs ++ rest)) = true := by
      rw [startsNumber_eq, ← List.cons_append, spelling_append]
      exact numberFirst_append _ h.1
    have ht := numberTail_complete h.2 stop rfl (stops_number_tail hr)
    rw [solidLexeme, if_pos hn, number, ht]
    rfl
  obtain hb | hb := isDigit_or_dot_of_numberFirst h.1
  · exact lexeme_of_isIdent (Byte.isIdent_of_isDigit hb) hs
  · refine lexeme_of_solidLexeme (by rw [hb]; decide) (by rw [hb]; decide) ?_ hs
    exact comment_absent fun hsl => absurd (hb.symm.trans hsl) (by decide)

theorem quotedLexeme_complete {k : Kind} {q : Glyph} (hq : Quotes k q.byte) {gs : List Glyph}
    (h : LiteralTail q.byte (spelling gs)) (start stop : Pos) (letters rest : List Glyph) :
    quotedLexeme false start stop k letters q (gs ++ rest) =
      .ok (takenLexeme k (spelling (letters ++ q :: gs)) (letters ++ q :: gs) rest) := by
  rw [quotedLexeme, literalTail_complete hq h stop rest rfl]
  simp [spelledLexeme, takenLexeme, Cut.prepend]

theorem of_quotes {k : Kind} {b : UInt8} (h : Quotes k b) :
    Byte.isDigit b = false ∧ b ≠ '.'.toUInt8 ∧ (ascii "uULR").contains b = false ∧
      Byte.isLineBreak b = false ∧ Byte.isBlank b = false ∧ b ≠ '/'.toUInt8 := by
  cases h <;> decide

/-- A literal is scanned as such from its letters, or from its quote if it has none. -/
theorem solidLexeme_literal {k : Kind} (stop : Pos) {letters : List Glyph} {q g : Glyph}
    {gs hs : List Glyph} (hq : Quotes k q.byte) (hl : spelling letters ∈ charsets)
    (hg : letters ++ q :: gs = g :: hs) :
    ∃ start, solidLexeme false stop g hs = quotedLexeme false start stop k letters q gs := by
  have hqb :
      k = .string ∧ q.byte = Byte.quote ∨ k = .character ∧ q.byte = Byte.apostrophe := by
    generalize q.byte = b at hq
    cases hq <;> simp
  cases letters with
  | nil =>
      obtain ⟨rfl, rfl⟩ := List.cons.inj hg
      obtain ⟨hd, hdot, hu, -⟩ := of_quotes hq
      refine ⟨q.pos, ?_⟩
      have hn : startsNumber (q :: gs) = false :=
        startsNumber_eq_false hd fun hb => absurd hb hdot
      obtain ⟨rfl, hb⟩ | ⟨rfl, hb⟩ := hqb
      · simp [solidLexeme, hn, hb, show Byte.quote ∉ ascii "uULR" by decide]
      · simp [solidLexeme, hn, hb, show Byte.apostrophe ∉ ascii "uULR" by decide,
          show Byte.apostrophe ≠ Byte.quote by decide]
  | cons g' letters =>
      have hqb' : q.byte = Byte.quote ∨ q.byte = Byte.apostrophe :=
        hqb.imp And.right And.right
      obtain ⟨g'', hs', he, hu, henc⟩ := encoding_complete gs hl (List.cons_ne_nil _ _) hqb'
      obtain ⟨rfl, rfl⟩ := List.cons.inj he
      rw [List.cons_append] at hg
      obtain ⟨rfl, rfl⟩ := List.cons.inj hg
      refine ⟨g'.pos, ?_⟩
      have hi := isIdentStart_of_mem_letters (List.contains_iff_mem.1 hu)
      have hn : startsNumber (g' :: (letters ++ q :: gs)) = false :=
        startsNumber_eq_false (Byte.not_isDigit_of_isIdentStart hi)
          fun hb => absurd hb (Byte.of_isIdent (Byte.isIdent_of_isIdentStart hi)).2.2.2.2.2.1
      have hs : solidLexeme false stop g' (letters ++ q :: gs) =
          encodedLexeme false stop g' (letters ++ q :: gs) := by
        rw [solidLexeme, hn, if_neg Bool.false_ne_true, if_pos hu]
      rw [hs, encodedLexeme, henc]
      obtain ⟨rfl, hb⟩ | ⟨rfl, hb⟩ := hqb
      · simp [hb]
      · simp [hb, show Byte.apostrophe ≠ Byte.quote by decide]

theorem lexeme_literal {k : Kind} {stop : Pos} {letters : List Glyph} {q g : Glyph}
    {gs hs : List Glyph} (hq : Quotes k q.byte) (hl : spelling letters ∈ charsets)
    (h : LiteralTail q.byte (spelling gs)) (hg : letters ++ q :: gs = g :: hs)
    (rest : List Glyph) :
    lexeme false stop g (hs ++ rest) =
      .ok (takenLexeme k (spelling (g :: hs)) (g :: hs) rest) := by
  have hg' : letters ++ q :: (gs ++ rest) = g :: (hs ++ rest) := by
    rw [← List.cons_append, ← List.cons_append, ← hg, List.append_assoc]
  obtain ⟨start, hs'⟩ := solidLexeme_literal stop hq hl hg'
  rw [quotedLexeme_complete hq h, hg] at hs'
  cases letters with
  | nil =>
      obtain ⟨rfl, rfl⟩ := List.cons.inj hg
      obtain ⟨-, -, -, hlb, hbl, hsl⟩ := of_quotes hq
      exact lexeme_of_solidLexeme hlb hbl (comment_absent fun hb => absurd hb hsl) hs'
  | cons g' letters =>
      rw [List.cons_append] at hg
      obtain ⟨rfl, rfl⟩ := List.cons.inj hg
      have hi := isIdent_of_mem_letters (.inr hl) g'.byte List.mem_cons_self
      exact lexeme_of_isIdent hi hs'

theorem lexeme_raw {stop p : Pos} {letters : List Glyph} {q g : Glyph} {gs hs : List Glyph}
    (hq : q.byte = Byte.quote) (hl : spelling letters ∈ rawLetters)
    (h : rawString p q gs = .ok ⟨q :: gs, []⟩) (hg : letters ++ q :: gs = g :: hs)
    (rest : List Glyph) :
    lexeme false stop g (hs ++ rest) =
      .ok (takenLexeme .string (spelling letters ++ verbatim (q :: gs)) (g :: hs) rest) := by
  obtain ⟨g', ls, rfl, hu, henc⟩ := encoding_complete_raw q (gs ++ rest) hl
  rw [List.cons_append] at hg
  obtain ⟨rfl, rfl⟩ := List.cons.inj hg
  have hi := isIdentStart_of_mem_letters (List.contains_iff_mem.1 hu)
  have hn : startsNumber (g' :: (ls ++ q :: gs ++ rest)) = false :=
    startsNumber_eq_false (Byte.not_isDigit_of_isIdentStart hi)
      fun hb => absurd hb (Byte.of_isIdent (Byte.isIdent_of_isIdentStart hi)).2.2.2.2.2.1
  refine lexeme_of_isIdent (Byte.isIdent_of_isIdentStart hi) ?_
  rw [solidLexeme, hn, if_neg Bool.false_ne_true, if_pos hu]
  have hr := rawString_alike h (.refl (List.cons_ne_nil q gs)) g'.pos rest
  simp only [encodedLexeme, List.append_assoc, List.cons_append, henc, hq, if_true, hr]
  simp [Except.map, takenLexeme, Cut.prepend]

theorem lexeme_of_isSingle {stop : Pos} {g : Glyph} {gs : List Glyph}
    (hg : isSingle g.byte = true)
    (hc : g.byte = '/'.toUInt8 → ∀ c ∈ (spelling gs).head?, c ≠ '/'.toUInt8 ∧
      c ≠ '*'.toUInt8)
    (hd : g.byte = '.'.toUInt8 → ∀ c ∈ (spelling gs).head?, Byte.isDigit c = false) :
    lexeme false stop g gs = .ok (punctLexeme g gs) := by
  simp only [isSingle, Bool.and_eq_true, Bool.not_eq_true', decide_eq_true_eq, bne_iff_ne] at hg
  obtain ⟨⟨⟨⟨⟨hwide, hi⟩, hq⟩, ha⟩, hlb⟩, hbl⟩ := hg
  obtain ⟨hs, hdig⟩ := Bool.or_eq_false_iff.1 hi
  have hu : g.byte ∉ ascii "uULR" := by
    intro hu
    exact absurd (isIdentStart_of_mem_letters hu) (by simp [hs])
  refine lexeme_of_solidLexeme hlb hbl (comment_absent hc) ?_
  simp [solidLexeme, startsNumber_eq_false hdig hd, hu, hq, ha, hs, UInt8.not_le.2 hwide]

/-- What punctuators of several bytes begin with. -/
theorem of_mem_punctuators {b : UInt8} {t : Text} (h : b :: t ∈ Vocabulary.punctuators) :
    isSingle b = true ∧ (b = '/'.toUInt8 → t = ascii "=") ∧
      (b = '.'.toUInt8 → t = ascii ".." ∨ t = ascii "*") := by
  have hall : ∀ p ∈ Vocabulary.punctuators, isSingle (p.headD 0) = true ∧
      (p.headD 0 = '/'.toUInt8 → p.tail = ascii "=") ∧
      (p.headD 0 = '.'.toUInt8 → p.tail = ascii ".." ∨ p.tail = ascii "*") := by decide
  exact hall (b :: t) h

theorem lexeme_punctuator {stop : Pos} {g : Glyph} {gs rest : List Glyph}
    (h : spelling (g :: gs) ∈ Vocabulary.punctuators)
    (hr : Stops .punctuator (spelling (g :: gs)) (spelling rest)) :
    lexeme false stop g (gs ++ rest) =
      .ok (takenLexeme .punctuator (spelling (g :: gs)) (g :: gs) rest) := by
  obtain ⟨hb, hsl, hdot⟩ := of_mem_punctuators h
  have hf := findSome?_punctuators h hr.1
  rw [List.cons_append] at hf
  rw [lexeme_of_isSingle hb, punctLexeme, hf]
  · rfl
  · intro hg c hc
    have ht : spelling gs = ascii "=" := hsl hg
    rw [spelling_append, ht] at hc
    cases hc
    decide
  · intro hg c hc
    have ht : spelling gs = ascii ".." ∨ spelling gs = ascii "*" := hdot hg
    rw [spelling_append] at hc
    obtain ht | ht := ht <;> rw [ht] at hc <;> cases hc <;> decide

theorem lexeme_single {stop : Pos} {g : Glyph} {rest : List Glyph} (h : isSingle g.byte = true)
    (hr : Stops .punctuator [g.byte] (spelling rest)) :
    lexeme false stop g rest = .ok (takenLexeme .punctuator [g.byte] [g] rest) := by
  rw [lexeme_of_isSingle h (fun hg => hr.2.1 (by rw [hg]; rfl))
    (fun hg => hr.2.2 (by rw [hg]; rfl)), punctLexeme, findSome?_punctuators_single hr.1]
  rfl

theorem unbroken_append {gs : List Glyph} (rest : List Glyph) (h : ∀ g ∈ gs, g.splices = []) :
    unbroken (gs ++ rest) = spelling gs ++ unbroken rest := by
  induction gs with
  | nil => rfl
  | cons g gs ih =>
      have hg := h g List.mem_cons_self
      have := ih fun h' hh => h h' (List.mem_cons_of_mem _ hh)
      simp [unbroken, hg, this]

theorem lexeme_of_wide {stop : Pos} {g : Glyph} {gs : List Glyph} (hw : 0x80 ≤ g.byte) :
    lexeme false stop g gs = .ok (wideLexeme g gs) := by
  obtain ⟨hlb, hbl, hident, hsl, hdot, hq, ha, -⟩ := Byte.of_le hw
  obtain ⟨hi, hd⟩ := Bool.or_eq_false_iff.1 hident
  have hu : (ascii "uULR").contains g.byte = false := by
    rw [Bool.eq_false_iff]
    intro hu
    simp [isIdentStart_of_mem_letters (List.contains_iff_mem.1 hu)] at hi
  refine lexeme_of_solidLexeme hlb hbl (comment_absent fun hb => absurd hb hsl) ?_
  have hn : startsNumber (g :: gs) = false :=
    startsNumber_eq_false hd fun hb => absurd hb hdot
  rw [solidLexeme, hn, hu, hi]
  simp [hq, ha, hw]

theorem lexeme_wide {stop : Pos} {g : Glyph} {gs : List Glyph} {n : Nat} (rest : List Glyph)
    (hw : 0x80 ≤ g.byte) (h : Utf8.decode (spelling (g :: gs)) = some (n, []))
    (hs : ∀ h ∈ g :: gs, h.splices = []) :
    lexeme false stop g (gs ++ rest) =
      .ok (takenLexeme .punctuator (spelling (g :: gs)) (g :: gs) rest) := by
  obtain ⟨a, u, hu, hu₃, -, -, hd⟩ := Utf8.decode_eq_some h
  rw [List.append_nil] at hu
  have hlen : (g :: gs).length ≤ 4 := by
    have := congrArg List.length hu
    simp [spelling] at this ⊢
    omega
  have ht : (g :: gs ++ rest).take 4 = g :: gs ++ rest.take (4 - (g :: gs).length) := by
    rw [List.take_append, List.take_of_length_le hlen]
  have hd := hd (unbroken (rest.take (4 - (g :: gs).length)))
  rw [← hu, ← unbroken_append _ hs, ← ht] at hd
  rw [lexeme_of_wide hw, wideLexeme]
  simp only [List.cons_append] at hd ht ⊢
  simp only [hd]
  have hwidth : (unbroken ((g :: (gs ++ rest)).take 4)).length -
      (unbroken (rest.take (4 - (g :: gs).length))).length = (g :: gs).length := by
    rw [ht, ← List.cons_append, unbroken_append _ hs, List.length_append, Nat.add_sub_cancel]
    exact List.length_map _
  rw [hwidth]
  simp [spelledLexeme, takenLexeme]

theorem noBreak_of_isIdent {t : Text} (h : ∀ b ∈ t, Byte.isIdent b = true) :
    ∀ b ∈ t, Byte.isLineBreak b = false :=
  fun b hb => (Byte.of_isIdent (h b hb)).1

theorem noBreak_of_literal {k : Kind} {mark : UInt8} (hq : Quotes k mark) {letters t : Text}
    (hl : letters ∈ charsets) (h : LiteralTail mark t) :
    ∀ b ∈ letters ++ mark :: t, Byte.isLineBreak b = false := by
  refine List.forall_mem_append.2 ⟨?_, List.forall_mem_cons.2 ⟨?_, ?_⟩⟩
  · exact noBreak_of_isIdent (isIdent_of_mem_letters (.inr hl))
  · exact (of_quotes hq).2.2.2.1
  · exact noBreak_of_literalTail hq h

theorem splices_plain (p : Pos) (t : Text) : ∀ g ∈ plain p t, g.splices = [] := by
  induction t generalizing p with
  | nil => intro g hg; cases hg
  | cons b t ih =>
      intro g hg
      obtain rfl | hg := List.mem_cons.1 hg
      · rfl
      · exact ih _ g hg

/-- A text without line breaks is read glyph by glyph. -/
theorem spliced_eq_of_noBreak (p : Pos) {t : Text} (hn : t ≠ [])
    (h : ∀ c ∈ t, Byte.isLineBreak c = false) :
    ∃ g gs, spliced p t = ([], g :: gs) ∧ spelling (g :: gs) = t ∧
      ∀ h ∈ g :: gs, h.splices = [] := by
  cases t with
  | nil => contradiction
  | cons b t =>
      refine ⟨⟨b, p, []⟩, plain (p.after b t) t, spliced_of_no_break p h, ?_, ?_⟩
      · exact spelling_plain p (b :: t)
      · exact splices_plain p (b :: t)

/-- The bytes that numbers are made of. -/
def numberByte (b : UInt8) : Bool :=
  Byte.isIdent b || Byte.isSign b || b == '.'.toUInt8 || b == Byte.apostrophe

theorem numberByte_of_isIdent {b : UInt8} (h : Byte.isIdent b = true) : numberByte b = true := by
  simp [numberByte, h]

theorem numberByte_of_numberTail {t : Text} (h : NumberTail t) :
    ∀ b ∈ t, numberByte b = true := by
  induction h with
  | nil =>
      intro b hb
      cases hb
  | exponent he hs _ ih =>
      have he := numberByte_of_isIdent (Byte.isIdent_of_isExponent he)
      exact List.forall_mem_cons.2 ⟨he,
        List.forall_mem_cons.2 ⟨by simp [numberByte, hs], ih⟩⟩
  | plain hb _ ih =>
      refine List.forall_mem_cons.2 ⟨?_, ih⟩
      obtain hb | hb := Bool.or_eq_true_iff.1 hb
      · exact numberByte_of_isIdent hb
      · simp [numberByte, hb]
  | separated hb _ ih =>
      exact List.forall_mem_cons.2 ⟨by decide,
        List.forall_mem_cons.2 ⟨numberByte_of_isIdent hb, ih⟩⟩

theorem numberByte_of_isNumber {t : Text} (h : IsNumber t) : ∀ b ∈ t, numberByte b = true := by
  cases t with
  | nil => cases h
  | cons a t =>
      refine List.forall_mem_cons.2 ⟨?_, numberByte_of_numberTail h.2⟩
      obtain ha | rfl := isDigit_or_dot_of_numberFirst h.1
      · exact numberByte_of_isIdent (Byte.isIdent_of_isDigit ha)
      · decide

/-- Bytes of numbers are ASCII, and no line break or backslash is one. -/
theorem of_numberByte {b : UInt8} (h : numberByte b = true) :
    Byte.isLineBreak b = false ∧ b ≠ Byte.backslash ∧ b < 0x80 := by
  simp only [numberByte, Byte.isSign, Bool.or_eq_true, beq_iff_eq, or_assoc] at h
  obtain h | rfl | rfl | rfl | rfl := h
  · obtain ⟨hbreak, -, -, -, -, -, hlt, hback⟩ := Byte.of_isIdent h
    exact ⟨hbreak, hback, hlt⟩
  · decide
  · decide
  · decide
  · decide

theorem noBreak_of_isNumber {t : Text} (h : IsNumber t) : ∀ b ∈ t, Byte.isLineBreak b = false :=
  fun b hb => (of_numberByte (numberByte_of_isNumber h b hb)).1

theorem noBreak_of_mem_punctuators {t : Text} (h : t ∈ Vocabulary.punctuators) :
    t ≠ [] ∧ ∀ b ∈ t, Byte.isLineBreak b = false := by
  have hn : ∀ p ∈ Vocabulary.punctuators, p ≠ [] := by decide
  exact ⟨hn t h, fun b hb => not_isLineBreak_of_isSingle (isSingle_of_mem_punctuators h b hb)⟩

/-- All bytes of a character outside ASCII are outside ASCII. -/
theorem le_of_decode {b : UInt8} {t : Text} {n : Nat} (hb : 0x80 ≤ b)
    (h : Utf8.decode (b :: t) = some (n, [])) : ∀ c ∈ b :: t, 0x80 ≤ c := by
  obtain ⟨a, u, hu, -, htail, -⟩ := Utf8.decode_eq_some h
  rw [List.append_nil] at hu
  obtain ⟨rfl, rfl⟩ := List.cons.inj hu
  refine List.forall_mem_cons.2 ⟨hb, fun c hc => ?_⟩
  exact UInt8.not_lt.1 (Utf8.not_lt_of_isTail (htail c hc))

theorem noBreak_of_decode {b : UInt8} {t : Text} {n : Nat} (hb : 0x80 ≤ b)
    (h : Utf8.decode (b :: t) = some (n, [])) : ∀ c ∈ b :: t, Byte.isLineBreak c = false :=
  fun c hc => (Byte.of_le (le_of_decode hb h c hc)).1

/-- The first glyphs of a text that spells a token are the glyphs of that token, and the
scanner takes them if what follows leaves it to. -/
theorem lexeme_complete {k : Kind} {t : Text} (h : Spells k t) (p stop : Pos)
    {rest : List Glyph} (hr : Stops k t (spelling rest)) :
    ∃ g gs, spliced p t = ([], g :: gs) ∧
      lexeme false stop g (gs ++ rest) = .ok (takenLexeme k t (g :: gs) rest) := by
  cases h with
  | identifier h =>
      have hn : t ≠ [] := by rintro rfl; cases h
      obtain ⟨g, gs, hsp, rfl, -⟩ :=
        spliced_eq_of_noBreak p hn (noBreak_of_isIdent (noBreak_of_isIdentifier h))
      exact ⟨g, gs, hsp, lexeme_identifier h hr⟩
  | number h =>
      have hn : t ≠ [] := by rintro rfl; cases h
      obtain ⟨g, gs, hsp, rfl, -⟩ := spliced_eq_of_noBreak p hn (noBreak_of_isNumber h)
      exact ⟨g, gs, hsp, lexeme_number h hr⟩
  | @literal _ mark letters t hq hl h =>
      obtain ⟨g, gs, hsp, hs, -⟩ :=
        spliced_eq_of_noBreak p (by simp) (noBreak_of_literal hq hl h)
      obtain ⟨ls, us, hg, hls, hus⟩ := List.map_eq_append_iff.1 hs
      obtain ⟨q, us, rfl, rfl, rfl⟩ := List.map_eq_cons_iff.1 hus
      have hl : spelling ls ∈ charsets := by rwa [spelling, hls]
      refine ⟨g, gs, hsp, ?_⟩
      rw [← hs]
      exact lexeme_literal hq hl h hg.symm rest
  | @raw letters t hl h =>
      obtain ⟨q, gs, hsp, hq, hv, hraw⟩ := h (p.atEnd letters)
      have hd : Detached t := detached_of_spliced hsp (by rw [hq]; decide)
      have hln : letters ≠ [] := by rintro rfl; revert hl; decide
      obtain ⟨g, ls, hlsp, hls, -⟩ := spliced_eq_of_noBreak p hln
        (noBreak_of_isIdent (isIdent_of_mem_letters (.inl hl)))
      refine ⟨g, ls ++ q :: gs, ?_, ?_⟩
      · rw [spliced_append p letters hd, hlsp, hsp]
        rfl
      · have := @lexeme_raw stop _ _ _ _ _ _ hq (hls ▸ hl) hraw rfl rest
        rwa [hls, hv] at this
  | punctuator h =>
      obtain ⟨hn, hb⟩ := noBreak_of_mem_punctuators h
      obtain ⟨g, gs, hsp, rfl, -⟩ := spliced_eq_of_noBreak p hn hb
      exact ⟨g, gs, hsp, lexeme_punctuator h hr⟩
  | @single b h =>
      obtain ⟨g, gs, hsp, hs, -⟩ := spliced_eq_of_noBreak p (by simp)
        (List.forall_mem_singleton.2 (not_isLineBreak_of_isSingle h))
      obtain ⟨rfl, hgs⟩ := List.cons.inj hs
      obtain rfl : gs = [] := List.map_eq_nil_iff.1 hgs
      exact ⟨g, [], hsp, lexeme_single h hr⟩
  | @wide b t n hb h =>
      obtain ⟨g, gs, hsp, hs, hno⟩ := spliced_eq_of_noBreak p (by simp) (noBreak_of_decode hb h)
      rw [← hs] at h
      obtain ⟨rfl, -⟩ := List.cons.inj hs
      refine ⟨g, gs, hsp, ?_⟩
      rw [← hs]
      exact lexeme_wide rest hb h hno

end Lexer
end CPreprocessor

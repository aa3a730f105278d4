import CPreprocessor.Proofs.Lexer.Recognition
import CPreprocessor.Proofs.Lexer.Tokens

/-!
In UTF-8 text every lexeme ends between two characters: behind an ASCII byte, behind a whole
character, or in front of a byte that continues none. So a strict scan of UTF-8 text meets no
stray byte.
-/

namespace CPreprocessor

/-- A cut behind an ASCII byte or in front of a byte that continues no character. -/
def Cut.Clean (c : Cut) : Prop :=
  (∀ g ∈ c.taken.getLast?, g.byte < 0x80) ∨ ∀ g ∈ c.rest.head?, Utf8.isTail g.byte = false

namespace Lexer

open Spelling Glyph

theorem clean_of_spelling {c : Cut} (h : ∀ b ∈ spelling c.taken, b < 0x80) : c.Clean :=
  .inl fun g hg => h g.byte (List.mem_map_of_mem (List.mem_of_getLast? hg))

theorem clean_of_getLast? {c : Cut} {b : UInt8} (h : (spelling c.taken).getLast? = some b)
    (hb : b < 0x80) : c.Clean := by
  refine .inl fun g hg => ?_
  rw [spelling, List.getLast?_map, hg] at h
  rwa [← Option.some.inj h] at hb

/-- Whether a cut is clean does not depend on what is taken before its last glyph. -/
theorem clean_prepend {c : Cut} (gs : List Glyph) (h : c.Clean) (hn : c.taken ≠ []) :
    (c.prepend gs).Clean := by
  refine h.imp_left fun h g hg => h g ?_
  rw [Cut.taken_prepend, List.getLast?_append, List.getLast?_eq_some_getLast hn] at hg
  rwa [List.getLast?_eq_some_getLast hn]

theorem lt_of_isIdent {b : UInt8} (h : Byte.isIdent b = true) : b < 0x80 :=
  (Byte.of_isIdent h).2.2.2.2.2.2.1

theorem lt_of_isLineBreak {b : UInt8} (h : Byte.isLineBreak b = true) : b < 0x80 := by
  obtain rfl | rfl := Byte.isLineBreak_eq_true h <;> decide

theorem clean_number {stop : Pos} {g : Glyph} {gs : List Glyph} {c : Cut}
    (hn : startsNumber (g :: gs) = true) (h : number stop g gs = .ok c) : c.Clean := by
  have hs := number_sound hn h
  obtain ⟨d, -, rfl⟩ := except_map_eq_ok h
  exact clean_of_spelling fun b hb => (of_numberByte (numberByte_of_isNumber hs b hb)).2.2

theorem clean_identLexeme (gs : List Glyph) : (identLexeme gs).cut.Clean :=
  clean_of_spelling fun _ hb => lt_of_isIdent (mem_spanning hb)

theorem getLast?_literalTail {mark : UInt8} {t : Text} (h : LiteralTail mark t) :
    t.getLast? = some mark := by
  induction h with
  | close => rfl
  | plain _ _ _ _ ih => rw [List.getLast?_cons, ih]; rfl
  | escape _ _ ih => rw [List.getLast?_cons, List.getLast?_cons, ih]; rfl
  | numeric _ _ _ ih => rw [List.getLast?_cons, ih]; rfl

theorem clean_quotedLexeme {start stop : Pos} {k : Kind} {letters : List Glyph} {q : Glyph}
    {gs : List Glyph} {x : Lexeme} (hq : Quotes k q.byte)
    (h : quotedLexeme false start stop k letters q gs = .ok x) :
    x.cut.Clean ∧ x.kind = k := by
  have hm : q.byte < 0x80 := by
    generalize q.byte = b at hq
    cases hq <;> decide
  unfold quotedLexeme at h
  split at h
  · rename_i c hc
    cases h
    have hl := getLast?_literalTail (literalTail_sound hq hc)
    refine ⟨clean_prepend _ (clean_of_getLast? hl hm) ?_, rfl⟩
    intro hn
    rw [hn] at hl
    cases hl
  · cases h
  · cases h

theorem spelling_of_contiguous {t : Text} {gs : List Glyph} {c : Cut}
    (h : contiguous t gs = some c) : spelling c.taken = t := by
  fun_induction contiguous t gs generalizing c with
  | case1 gs => cases h; rfl
  | case2 | case4 | case6 => cases h
  | case3 g gs => cases h; rfl
  | case5 b t g gs _ hg ih =>
      obtain ⟨d, hd, rfl⟩ := Option.map_eq_some_iff.1 h
      rw [Cut.taken_prepend, List.singleton_append, spelling_cons, ih hd, hg.1]

theorem suffix_of_rawBody {closer : Text} {gs : List Glyph} {c : Cut}
    (h : rawBody closer gs = some c) : closer <:+ spelling c.taken := by
  induction gs generalizing c with
  | nil => cases h
  | cons g gs ih =>
      rw [rawBody] at h
      split at h
      · rename_i d hd
        cases h
        exact ⟨[], (spelling_of_contiguous hd).symm⟩
      · obtain ⟨d, hd, rfl⟩ := Option.map_eq_some_iff.1 h
        exact (ih hd).trans (List.suffix_append [g.byte] _)

/-- A raw string ends with a quote of its own. -/
theorem ends_of_rawString {start : Pos} {q : Glyph} {gs : List Glyph} {c : Cut}
    (h : rawString start q gs = .ok c) :
    ∃ ms z, c.taken = q :: ms ++ [z] ∧ z.byte = Byte.quote := by
  obtain ⟨ds, o, bs, b, -, -, hb, rfl⟩ := rawString_eq_ok h
  obtain ⟨s, hs⟩ := suffix_of_rawBody hb
  have hl : (spelling b.taken).getLast? = some Byte.quote := by
    rw [← hs, ← List.append_assoc]
    exact List.getLast?_concat
  obtain hn | ⟨ms, z, hz⟩ := List.eq_nil_or_concat b.taken
  · rw [hn] at hl
    cases hl
  · rw [List.concat_eq_append] at hz
    rw [hz, spelling_append, spelling_cons, List.getLast?_append] at hl
    exact ⟨ds ++ [o] ++ ms, z, by simp [hz], Option.some.inj hl⟩

theorem clean_rawString {start : Pos} {q : Glyph} {gs : List Glyph} {c : Cut}
    (h : rawString start q gs = .ok c) : c.Clean := by
  obtain ⟨ms, z, ht, hz⟩ := ends_of_rawString h
  refine clean_of_getLast? (b := Byte.quote) ?_ (by decide)
  rw [ht, spelling_append, List.getLast?_append]
  exact congrArg some hz

theorem clean_encodedLexeme {stop : Pos} {g : Glyph} {gs : List Glyph} {x : Lexeme}
    (h : encodedLexeme false stop g gs = .ok x) : x.cut.Clean ∧ x.kind ≠ .invalid := by
  unfold encodedLexeme at h
  simp only at h
  split at h
  · rename_i q t ht
    split at h
    · rename_i hq
      split at h
      · obtain ⟨c, hc, rfl⟩ := except_map_eq_ok h
        obtain ⟨ts, hts⟩ := taken_of_rawString hc
        exact ⟨clean_prepend _ (clean_rawString hc) (by simp [hts]), by rintro ⟨⟩⟩
      · obtain ⟨hc, hk⟩ := clean_quotedLexeme (hq ▸ .string) h
        exact ⟨hc, by simp [hk]⟩
    · split at h
      · rename_i hq
        obtain ⟨hc, hk⟩ := clean_quotedLexeme (hq.1 ▸ .character) h
        exact ⟨hc, by simp [hk]⟩
      · cases h
        exact ⟨clean_identLexeme _, by rintro ⟨⟩⟩
  · cases h
    exact ⟨clean_identLexeme _, by rintro ⟨⟩⟩

theorem clean_punctLexeme {g : Glyph} (gs : List Glyph) (hg : g.byte < 0x80) :
    (punctLexeme g gs).cut.Clean ∧ (punctLexeme g gs).kind ≠ .invalid := by
  unfold punctLexeme
  split
  · rename_i c hc
    obtain ⟨p, hp, hs⟩ := List.exists_of_findSome?_eq_some hc
    refine ⟨clean_of_spelling ?_, by rintro ⟨⟩⟩
    rw [spelledLexeme, spelled_eq_some hs]
    exact fun b hb => lt_of_isSingle (isSingle_of_mem_punctuators hp b hb)
  · exact ⟨clean_of_spelling (List.forall_mem_singleton.2 hg), by rintro ⟨⟩⟩

theorem clean_blockComment {gs : List Glyph} {c : Cut} (h : blockComment gs = some c) :
    c.Clean ∧ c.taken ≠ [] := by
  fun_induction blockComment gs generalizing c with
  | case1 | case2 => cases h
  | case3 g h' gs hb =>
      cases h
      have hl : (spelling [g, h']).getLast? = some '/'.toUInt8 := by simp [spelling, hb.2]
      exact ⟨clean_of_getLast? hl (by decide), by simp⟩
  | case4 g h' gs hb ih =>
      obtain ⟨d, hd, rfl⟩ := Option.map_eq_some_iff.1 h
      obtain ⟨hc, hn⟩ := ih hd
      exact ⟨clean_prepend _ hc hn, by simp⟩

theorem head?_rest_spanning {p : UInt8 → Bool} {gs : List Glyph} {g : Glyph}
    (h : g ∈ (Cut.spanning p gs).rest.head?) : p g.byte = false := by
  induction gs with
  | nil => cases h
  | cons g' gs ih =>
      by_cases hp : p g'.byte = true
      · simp only [Cut.spanning, hp, if_true, Cut.rest_prepend] at h
        exact ih h
      · rw [Cut.spanning, if_neg hp] at h
        cases h
        exact Bool.eq_false_iff.2 hp

/-- A line comment leaves the line end, which is ASCII. -/
theorem clean_comment {gs : List Glyph} {c : Cut} (h : comment gs = .found c) : c.Clean := by
  unfold comment at h
  split at h
  · split at h
    · split at h
      · rename_i c hc
        cases h
        obtain ⟨hd, hn⟩ := clean_blockComment hc
        exact clean_prepend _ hd hn
      · cases h
    · split at h
      · cases h
        refine .inr fun g hg => ?_
        have hb := head?_rest_spanning hg
        rw [Bool.not_eq_false'] at hb
        obtain hb | hb := Byte.isLineBreak_eq_true hb <;> rw [hb] <;> decide
      · cases h
  · cases h

/-- One more part of white space in front. -/
theorem clean_prepend_space {c : Cut} {gs : List Glyph} (h : c.taken = [] ∨ c.Clean)
    (hg : c.taken = [] → Cut.Clean ⟨gs, c.rest⟩) : (c.prepend gs).Clean := by
  by_cases hn : c.taken = []
  · rw [Cut.prepend, hn, List.append_nil]
    exact hg hn
  · exact clean_prepend gs (h.resolve_left hn) hn

theorem clean_singleton {g : Glyph} (rest : List Glyph) (h : g.byte < 0x80) :
    Cut.Clean ⟨[g], rest⟩ :=
  clean_of_spelling (List.forall_mem_singleton.2 h)

theorem clean_space {gs : List Glyph} {s : Space} (h : space gs = some s) :
    s.cut.taken = [] ∨ s.cut.Clean := by
  fun_induction space gs generalizing s with
  | case1 => cases h; exact .inl rfl
  | case2 g t hg ih =>
      obtain ⟨d, hd, rfl⟩ := Option.map_eq_some_iff.1 h
      exact .inr (clean_prepend_space (ih hd) fun _ => clean_singleton _ (lt_of_isLineBreak hg))
  | case3 g t _ hg ih =>
      obtain ⟨d, hd, rfl⟩ := Option.map_eq_some_iff.1 h
      refine .inr (clean_prepend_space (ih hd) fun _ => clean_singleton _ ?_)
      simp only [Byte.isBlank, Bool.or_eq_true, beq_iff_eq] at hg
      obtain ((hb | hb) | hb) | hb := hg <;> rw [hb] <;> decide
  | case4 => cases h; exact .inl rfl
  | case5 => cases h
  | case6 g t _ _ c hc ih =>
      obtain ⟨d, hd, rfl⟩ := Option.map_eq_some_iff.1 h
      refine .inr (clean_prepend_space (ih hd) fun hn => ?_)
      have hw := whole_of_space hd
      rw [Cut.whole, hn, List.nil_append] at hw
      rw [hw]
      exact clean_comment hc

/-- Glyphs whose line joins are ASCII, as all that are read from a text. -/
def Joined (gs : List Glyph) : Prop :=
  ∀ g ∈ gs, ∀ b ∈ g.splices, b < 0x80

theorem joined_spliced (p : Pos) (t : Text) :
    (∀ b ∈ (spliced p t).1, b < 0x80) ∧ Joined (spliced p t).2 := by
  induction p, t using spliced_induction with
  | nil p => exact ⟨by simp [spliced], by simp [spliced, Joined]⟩
  | crlf p t ih =>
      rw [spliced_crlf]
      refine ⟨?_, ih.2⟩
      simp only [List.forall_mem_cons]
      exact ⟨by decide, by decide, by decide, ih.1⟩
  | join p b t hb ih =>
      rw [spliced_join p hb]
      have hlt : b < 0x80 := by
        simp only [Pos.endsLine, Bool.or_eq_true, beq_iff_eq, Bool.and_eq_true] at hb
        obtain rfl | ⟨rfl, -⟩ := hb <;> decide
      exact ⟨List.forall_mem_cons.2 ⟨by decide, List.forall_mem_cons.2 ⟨hlt, ih.1⟩⟩,
        ih.2⟩
  | byte p b t hb ih =>
      rw [spliced_cons p hb]
      exact ⟨by simp, List.forall_mem_cons.2 ⟨ih.1, ih.2⟩⟩

/-- What follows a clean cut of UTF-8 text is UTF-8. -/
theorem valid_rest {c : Cut} (hj : Joined c.taken) (hc : c.Clean)
    (hv : Utf8.valid (c.whole.flatMap source) = true) :
    Utf8.valid (c.rest.flatMap source) = true := by
  rw [Cut.whole, List.flatMap_append] at hv
  refine Utf8.valid_of_append hv ?_
  refine hc.imp (fun hc b hb => ?_) fun hc b hb => ?_
  · obtain ht | ⟨ts, g, ht⟩ := List.eq_nil_or_concat c.taken
    · rw [ht] at hb
      cases hb
    · rw [List.concat_eq_append] at ht
      rw [ht, List.flatMap_append, List.flatMap_singleton, List.getLast?_append, source,
        List.getLast?_cons] at hb
      cases hl : g.splices.getLast? with
      | none =>
          rw [hl] at hb
          cases hb
          exact hc g (by rw [ht]; exact List.getLast?_concat)
      | some d =>
          rw [hl] at hb
          cases hb
          exact hj g (by simp [ht]) d (List.mem_of_getLast? hl)
  · cases hr : c.rest with
    | nil => rw [hr] at hb; cases hb
    | cons g gs =>
        rw [hr] at hb hc
        cases hb
        exact hc g rfl

/-- The bytes of a character have no line join between them. -/
theorem unbroken_character {u : Text} (hu : ∀ b ∈ u, Utf8.isTail b = true) {c : UInt8}
    {gs : List Glyph} (hj : Joined gs) {r : Text} (h : gs.flatMap source = c :: u ++ r) {n : Nat}
    (hn : u.length < n) :
    c :: u <+: unbroken (gs.take n) ∧
      ∃ v, (∀ b ∈ v, b < 0x80) ∧ r = v ++ (gs.drop (u.length + 1)).flatMap source := by
  induction u generalizing c gs n with
  | nil =>
      cases gs with
      | nil => cases h
      | cons g gs =>
          obtain ⟨n, rfl⟩ : ∃ m, n = m + 1 := ⟨n - 1, by omega⟩
          obtain ⟨rfl, hr⟩ := List.cons.inj h
          refine ⟨?_, g.splices, hj g List.mem_cons_self, hr.symm⟩
          rw [List.take_succ_cons, unbroken]
          split <;> simp
  | cons d u ih =>
      cases gs with
      | nil => cases h
      | cons g gs =>
          obtain ⟨n, rfl⟩ : ∃ m, n = m + 1 := ⟨n - 1, by omega⟩
          obtain ⟨rfl, hr⟩ := List.cons.inj h
          have hs : g.splices = [] := by
            cases hs : g.splices with
            | nil => rfl
            | cons e s =>
                rw [hs] at hr
                obtain ⟨rfl, -⟩ := List.cons.inj hr
                have hlt := hj g List.mem_cons_self e (by simp [hs])
                exact absurd hlt (Utf8.not_lt_of_isTail (hu e List.mem_cons_self))
          rw [hs] at hr
          obtain ⟨hp, v, hv, hrest⟩ := ih (fun b hb => hu b (List.mem_cons_of_mem d hb))
            (fun g' hg' => hj g' (List.mem_cons_of_mem g hg')) hr (Nat.lt_of_succ_lt_succ hn)
          refine ⟨?_, v, hv, hrest⟩
          rw [List.take_succ_cons, unbroken, if_pos hs]
          exact List.cons_prefix_cons.2 ⟨rfl, hp⟩

/-- Where a character starts, the scanner takes it whole. -/
theorem wideLexeme_valid {g : Glyph} {gs : List Glyph} (hj : Joined (g :: gs))
    (hv : Utf8.valid ((g :: gs).flatMap source) = true) :
    (wideLexeme g gs).kind ≠ .invalid ∧
      Utf8.valid ((wideLexeme g gs).cut.rest.flatMap source) = true := by
  obtain ⟨n, r, hd, hr⟩ := Utf8.exists_decode_of_valid hv
  obtain ⟨c, u, hu, hu₃, htail, -, hdec⟩ := Utf8.decode_eq_some hd
  obtain ⟨⟨w, hw⟩, v, hv, rfl⟩ := unbroken_character htail hj hu (Nat.lt_succ_of_le hu₃)
  have hlen : (unbroken ((g :: gs).take 4)).length - w.length = u.length + 1 := by
    rw [← hw, List.length_append, Nat.add_sub_cancel]
    rfl
  have hl : wideLexeme g gs = spelledLexeme .punctuator
      ⟨(g :: gs).take (u.length + 1), (g :: gs).drop (u.length + 1)⟩ := by
    rw [wideLexeme]
    simp only [← hw, hdec w]
    rw [hw, hlen]
  rw [hl]
  refine ⟨by rintro ⟨⟩,
    Utf8.valid_of_append hr (.inl fun b hb => hv b (List.mem_of_getLast? hb))⟩

theorem lexeme_valid {stop : Pos} {g : Glyph} {gs : List Glyph} {x : Lexeme}
    (hj : Joined (g :: gs)) (hv : Utf8.valid ((g :: gs).flatMap source) = true)
    (h : lexeme false stop g gs = .ok x) :
    x.kind ≠ .invalid ∧ Utf8.valid (x.cut.rest.flatMap source) = true := by
  have hw := (cuts_lexeme h).whole
  have hclean : x.cut.Clean → Utf8.valid (x.cut.rest.flatMap source) = true := by
    intro hc
    rw [← hw] at hj hv
    exact valid_rest (fun g hg => hj g (List.mem_append_left _ hg)) hc hv
  unfold lexeme at h
  split at h
  · cases h
  · rename_i s hs
    split at h
    · unfold solidLexeme at h
      split at h
      · rename_i hn
        obtain ⟨c, hc, rfl⟩ := except_map_eq_ok h
        exact ⟨by rintro ⟨⟩, hclean (clean_number hn hc)⟩
      · split at h
        · obtain ⟨hc, hk⟩ := clean_encodedLexeme h
          exact ⟨hk, hclean hc⟩
        · split at h
          · rename_i hq
            obtain ⟨hc, hk⟩ := clean_quotedLexeme (hq ▸ .string) h
            exact ⟨by simp [hk], hclean hc⟩
          · split at h
            · rename_i hq
              obtain ⟨hc, hk⟩ := clean_quotedLexeme (hq ▸ .character) h
              exact ⟨by simp [hk], hclean hc⟩
            · split at h
              · cases h
                exact ⟨by rintro ⟨⟩, hclean (clean_identLexeme _)⟩
              · split at h
                · cases h
                  exact wideLexeme_valid hj hv
                · rename_i hg
                  cases h
                  obtain ⟨hc, hk⟩ := clean_punctLexeme gs (UInt8.not_le.1 hg)
                  exact ⟨hk, hclean hc⟩
    · rename_i ht
      cases h
      have hn := taken_ne_nil_of_space hs ht
      exact ⟨by rintro ⟨⟩, hclean ((clean_space hs).resolve_left hn)⟩

/-- A strict scan calls nothing invalid but a single byte outside ASCII. -/
theorem stray_of_lexeme {stop : Pos} {g : Glyph} {gs : List Glyph} {x : Lexeme}
    (h : lexeme false stop g gs = .ok x) (hk : x.kind = .invalid) :
    x.text = [g.byte] ∧ 0x80 ≤ g.byte := by
  unfold lexeme at h
  split at h
  · cases h
  · split at h
    · unfold solidLexeme at h
      split at h
      · obtain ⟨c, -, rfl⟩ := except_map_eq_ok h
        cases hk
      · split at h
        · exact absurd hk (clean_encodedLexeme h).2
        · split at h
          · rename_i hq
            simp [(clean_quotedLexeme (hq ▸ .string) h).2] at hk
          · split at h
            · rename_i hq
              simp [(clean_quotedLexeme (hq ▸ .character) h).2] at hk
            · split at h
              · cases h
                cases hk
              · split at h
                · rename_i hg
                  cases h
                  rw [wideLexeme] at hk ⊢
                  simp only at hk ⊢
                  cases hd : Utf8.decode (unbroken ((g :: gs).take 4)) with
                  | none =>
                      simp only
                      exact ⟨rfl, hg⟩
                  | some c =>
                      rw [hd] at hk
                      cases hk
                · rename_i hg
                  cases h
                  exact absurd hk (clean_punctLexeme gs (UInt8.not_le.1 hg)).2
    · cases h
      cases hk

/-- A strict scan of UTF-8 text meets no stray byte. -/
theorem not_invalid_of_mem_content {stop : Pos} {gs : List Glyph} (hj : Joined gs)
    (hv : Utf8.valid (gs.flatMap source) = true) {t : Token}
    (ht : t ∈ (Source.content (⟨gs, stop, false⟩ : Lexer)).1) : t.kind ≠ .invalid := by
  induction gs using lexeme_induction stop false with
  | nil => rw [content_nil] at ht; cases ht
  | error g gs e h => rw [content_error h] at ht; cases ht
  | token g gs x h ih =>
      obtain ⟨hk, hr⟩ := lexeme_valid hj hv h
      rw [content_cons h] at ht
      obtain rfl | ht := List.mem_cons.1 ht
      · exact hk
      · refine ih (fun g' hg' => hj g' ?_) hr ht
        rw [← (cuts_lexeme h).whole]
        exact List.mem_append_right _ hg'

end Lexer

theorem not_invalid_of_valid {src : Text} (h : Utf8.valid src = true) :
    ∀ t ∈ (tokenize src).tokens, t.kind ≠ .invalid := by
  intro t ht
  rw [tokenize_eq] at ht
  obtain ⟨hl, hj⟩ := Lexer.joined_spliced .start src
  refine Lexer.not_invalid_of_mem_content hj ?_ ht
  have hs := Glyph.sources_spliced .start src
  rw [← hs] at h
  exact Utf8.valid_of_append h (.inl fun b hb => hl b (List.mem_of_getLast? hb))

end CPreprocessor

import CPreprocessor.Proofs.Lexer.Characters
import CPreprocessor.Proofs.Printer.Spacing

/-!
What the printer writes is read back as the tokens it was given, white space aside. The tokens
are taken in turn from the last to the first: what is printed after a token is read back, and
its first bytes leave the token as it is. Two things the printer does not look at: a lone
backslash in front of a line break joins two lines, and stray bytes side by side may be a
character.
-/

namespace CPreprocessor

open Glyph

namespace Token

/-- What is left of a token without its place: its kind and its text. -/
def word (t : Token) : Kind × Text :=
  (t.kind, t.text)

/-- The bytes of the stray tokens at the front. -/
def strayRun : List Token → Text
  | [] => []
  | t :: ts => if t.kind = .invalid then t.text ++ strayRun ts else []

/-- Whether a lone backslash stands directly in front of a line break. -/
def joinsLine : List Token → Bool
  | t :: u :: ts =>
    (t.text == [Byte.backslash] && u.text.head?.any Byte.isLineBreak) || joinsLine (u :: ts)
  | _ => false

/-- Whether a stray byte begins a character with the stray bytes behind it. -/
def formsCharacter : List Token → Bool
  | [] => false
  | t :: ts =>
    (t.kind == .invalid && (Utf8.decode (t.text ++ strayRun ts)).isSome) || formsCharacter ts

/-- A token as a scanner gives it: a spelling of its kind, white space without comments, or a
stray byte. -/
inductive Printable (t : Token) : Prop where
  | spelled : Spells t.kind t.text → Printable t
  | space : t.isSpace = true → t.text ≠ [] →
      (∀ b ∈ t.text, Byte.isLineBreak b = true ∨ Byte.isBlank b = true) → Printable t
  | stray {b : UInt8} : t.kind = .invalid → t.text = [b] → 0x80 ≤ b → Printable t

end Token

theorem Glyph.getLast?_verbatim (gs : List Glyph) (z : Glyph) :
    (verbatim (gs ++ [z])).getLast? = some z.byte := by
  induction gs with
  | nil => rfl
  | cons g gs ih =>
      rw [List.cons_append, verbatim_cons g (by simp), List.getLast?_append, ih]
      rfl

namespace Spells

/-- Outside literals there are no quotes and no line breaks, and a backslash stands alone. -/
theorem bytes_of_not_literal {k : Kind} {t : Text} (h : Spells k t)
    (hk : ¬(k = .string ∨ k = .character)) (ht : t ≠ [Byte.backslash]) :
    ∀ b ∈ t, b ≠ Byte.quote ∧ b ≠ Byte.backslash ∧ Byte.isLineBreak b = false := by
  intro b hb
  have hsingle (h : Spelling.isSingle b = true) :
      b ≠ Byte.quote ∧ Byte.isLineBreak b = false := by
    refine ⟨?_, Spelling.not_isLineBreak_of_isSingle h⟩
    rintro rfl
    cases h
  cases h with
  | identifier h =>
      obtain ⟨hl, -, -, hq, -, -, -, hback⟩ :=
        Byte.of_isIdent (Lexer.noBreak_of_isIdentifier h b hb)
      exact ⟨hq, hback, hl⟩
  | number h =>
      have hn := Lexer.numberByte_of_isNumber h b hb
      obtain ⟨hl, hback, -⟩ := Lexer.of_numberByte hn
      refine ⟨?_, hback, hl⟩
      rintro rfl
      revert hn
      decide
  | literal hq _ _ => cases hq <;> simp at hk
  | raw => simp at hk
  | punctuator h =>
      have hall : (Vocabulary.punctuators.all fun p => p.all (· != Byte.backslash)) = true := by
        decide
      have hback := bne_iff_ne.1 (List.all_eq_true.1 (List.all_eq_true.1 hall t h) b hb)
      obtain ⟨hq, hl⟩ := hsingle (Spelling.isSingle_of_mem_punctuators h b hb)
      exact ⟨hq, hback, hl⟩
  | single h =>
      obtain rfl := List.mem_singleton.1 hb
      obtain ⟨hq, hl⟩ := hsingle h
      exact ⟨hq, fun hback => ht (by rw [hback]), hl⟩
  | wide hle h =>
      obtain ⟨hl, -, -, -, -, hq, -, hback⟩ := Byte.of_le (Lexer.le_of_decode hle h b hb)
      exact ⟨hq, hback, hl⟩

/-- No token but a lone backslash ends in a backslash, and none ends in a line break. -/
theorem getLast?_text {k : Kind} {t : Text} (h : Spells k t) (ht : t ≠ [Byte.backslash]) :
    t.getLast? ≠ some Byte.backslash ∧ t.getLast? ≠ some Byte.carriageReturn := by
  have hmark {m : UInt8} (hm : m = Byte.quote ∨ m = Byte.apostrophe) (hl : t.getLast? = some m) :
      t.getLast? ≠ some Byte.backslash ∧ t.getLast? ≠ some Byte.carriageReturn := by
    rw [hl]
    obtain rfl | rfl := hm <;> decide
  have hbytes (hk : ¬(k = .string ∨ k = .character)) :
      t.getLast? ≠ some Byte.backslash ∧ t.getLast? ≠ some Byte.carriageReturn := by
    have hall := h.bytes_of_not_literal hk ht
    refine ⟨fun hl => (hall _ (List.mem_of_getLast? hl)).2.1 rfl, fun hl => ?_⟩
    have hbreak := (hall _ (List.mem_of_getLast? hl)).2.2
    revert hbreak
    decide
  cases h with
  | identifier | number | punctuator | single | wide => exact hbytes (by simp)
  | @literal _ mark letters t hq _ h =>
      refine hmark ?_ (m := mark) ?_
      · cases hq <;> simp
      · rw [List.getLast?_append, List.getLast?_cons, Lexer.getLast?_literalTail h]
        rfl
  | @raw letters t _ h =>
      obtain ⟨q, gs, -, -, hv, hraw⟩ := h .start
      obtain ⟨ms, z, hz, hq⟩ := Lexer.ends_of_rawString hraw
      refine hmark (.inl rfl) ?_
      have hlast := getLast?_verbatim (q :: ms) z
      rw [← hz, hv, hq] at hlast
      rw [List.getLast?_append, hlast]
      rfl

/-- No token begins with a byte that continues a character. -/
theorem head_not_isTail {k : Kind} {b : UInt8} {t : Text} (h : Spells k (b :: t)) :
    Utf8.isTail b = false := by
  obtain ⟨c, r, hc, hf⟩ := h.exists_first
  obtain ⟨rfl, rfl⟩ := List.cons.inj hc
  have hident (hb : Byte.isIdent b = true) : Utf8.isTail b = false :=
    Utf8.not_isTail_of_lt (Lexer.lt_of_isIdent hb)
  have hsingle (hb : Spelling.isSingle b = true) : Utf8.isTail b = false :=
    Utf8.not_isTail_of_lt (Spelling.lt_of_isSingle hb)
  cases k with
  | punctuator =>
      generalize hs : b :: t = s at h
      cases h with
      | literal hq _ _ => cases hq
      | punctuator h => exact hsingle (Lexer.of_mem_punctuators (hs ▸ h)).1
      | single h =>
          cases hs
          exact hsingle h
      | wide _ h =>
          cases hs
          exact Utf8.not_isTail_of_decode (by rw [h]; rfl)
  | identifier => exact hident (Byte.isIdent_of_isIdentStart hf)
  | number =>
      obtain hb | hb := Bool.or_eq_true_iff.1 hf
      · exact hident (Byte.isIdent_of_isDigit hb)
      · rw [beq_iff_eq.1 hb]
        decide
  | string | character =>
      obtain hb | hb := Bool.or_eq_true_iff.1 hf
      · exact hident (Byte.isIdent_of_isIdentStart hb)
      · rw [beq_iff_eq.1 hb]
        decide
  | unclassified | whitespace | invalid => cases hf

end Spells

/-- Blanks and line breaks continue no character. -/
theorem not_isTail_of_blank {b : UInt8} (h : Byte.isLineBreak b = true ∨ Byte.isBlank b = true) :
    Utf8.isTail b = false := by
  obtain h | h := h
  · obtain rfl | rfl := Byte.isLineBreak_eq_true h <;> decide
  · obtain rfl | rfl | rfl | rfl := Byte.isBlank_eq_true h <;> decide

namespace Token.Printable

variable {t : Token}

theorem ne_nil (h : t.Printable) : t.text ≠ [] := by
  cases h with
  | spelled h => exact h.ne_nil
  | space _ hn _ => exact hn
  | stray _ hb _ =>
      rw [hb]
      exact List.cons_ne_nil _ _

/-- What does not begin a token of some kind is no part of any. -/
theorem outside_or_spells (h : t.Printable) :
    Spells t.kind t.text ∨ ∀ b ∈ t.text.head?, Spelling.outside b = true := by
  cases h with
  | spelled h => exact .inl h
  | space _ _ hall =>
      refine .inr fun b hb => ?_
      rcases hall b (List.mem_of_head? hb) with hb | hb <;> simp [Spelling.outside, hb]
  | stray _ hb hle =>
      refine .inr fun c hc => ?_
      rw [hb] at hc
      cases hc
      simp [Spelling.outside, hle]

end Token.Printable

namespace Lexer

theorem printable_of_lexeme {tolerant : Bool} {stop : Pos} {g : Glyph} {gs : List Glyph}
    {x : Lexeme} (hr : Read (g :: gs)) (h : lexeme tolerant stop g gs = .ok x)
    (hs : tolerant = false ∨ x.kind = .whitespace) : (place g.pos x).Printable := by
  by_cases hw : x.kind = .whitespace
  · obtain ⟨s, hspace, hn, rfl⟩ := space_of_lexeme h hw
    exact .space rfl hn (blank_of_space hspace)
  · obtain rfl := hs.resolve_right hw
    by_cases hi : x.kind = .invalid
    · obtain ⟨ht, hb⟩ := stray_of_lexeme h hi
      exact .stray hi ht hb
    · exact .spelled (lexeme_sound hr h hw hi)

end Lexer

theorem Token.printable_of_mem_tokenize {src : Text} {t : Token}
    (ht : t ∈ (tokenize src).tokens) :
    t.Printable := by
  rw [tokenize_eq] at ht
  exact Lexer.forall_mem_content
    (fun _ _ _ hr h => Lexer.printable_of_lexeme hr h (.inl rfl)) ⟨.start, src, rfl⟩ t ht

namespace Printer

open Lexer

/-- Read anywhere, a text gives the words of `ts` with white space between them. -/
structure ReadsAs (u : Text) (ts : List Token) : Prop where
  joinFirst : joinFirst u = false
  content : ∀ p stop, ∃ out,
    Source.content (⟨(spliced p u).2, stop, false⟩ : Lexer) = (out, .eof) ∧
      (Token.solid out).map Token.word = ts.map Token.word

/-- Such a text is scanned without an error, and its words are those of `ts`. -/
theorem ReadsAs.tokenize {u : Text} {ts : List Token} (h : ReadsAs u ts) :
    (tokenize u).error = none ∧
      (Token.solid (tokenize u).tokens).map Token.word = ts.map Token.word := by
  obtain ⟨out, hc, hout⟩ := h.content .start (Pos.start.atEnd u)
  have hc : Source.content (Lexer.ofText u) = (out, .eof) := hc
  rw [tokenize_eq, hc]
  exact ⟨rfl, hout⟩

theorem readsAs_nil : ReadsAs [] [] where
  joinFirst := rfl
  content _ _ := ⟨[], content_nil, rfl⟩

/-- The scanner sees a token as it is spelled, as far as its neighbours are concerned. -/
theorem opens_of_spliced {k : Kind} {t : Text} (h : Spells k t) {p : Pos} {g : Glyph}
    {gs : List Glyph} (hs : spliced p t = ([], g :: gs)) : Opens k t (spelling (g :: gs)) := by
  have hsrc := sources_spliced p t
  rw [hs] at hsrc
  refine ⟨?_, ?_⟩
  · rw [← hsrc]
    rfl
  · rintro rfl
    have hnb := h.punctuator_noBreak
    rw [spliced_of_no_break p hnb] at hs
    rw [← (Prod.mk.inj hs).2, spelling_plain]

/-- A token in front of a text that leaves it as it is. -/
theorem ReadsAs.token {t : Token} (h : Spells t.kind t.text) {u : Text} {ts : List Token}
    (hu : ReadsAs u ts) (ha : Apart t.text u)
    (hstop : ∀ p, Stops t.kind t.text (spelling (spliced p u).2)) :
    ReadsAs (t.text ++ u) (t :: ts) := by
  have hd : Detached t.text := by
    obtain ⟨g, gs, hsp, -⟩ := lexeme_complete h .start .start (hstop .start)
    refine detached_of_spliced hsp ?_
    obtain ⟨b, r, hb⟩ := List.exists_cons_of_ne_nil h.ne_nil
    have ho := (opens_of_spliced h hsp).head
    rw [hb] at ho h
    cases ho
    exact h.head_noBreak
  refine ⟨ha.not_joinFirst_append hd.1, fun p stop => ?_⟩
  obtain ⟨g, gs, hsp, hx⟩ := lexeme_complete h p stop (hstop (p.atEnd t.text))
  obtain ⟨out, hc, hout⟩ := hu.content (p.atEnd t.text) stop
  refine ⟨place g.pos (takenLexeme t.kind t.text (g :: gs) (spliced (p.atEnd t.text) u).2) :: out,
    ?_, ?_⟩
  · rw [ha.spliced_append p, hsp, List.cons_append, content_cons hx]
    exact congrArg (fun c => (_ :: c.1, c.2)) hc
  · have hk : (t.kind == .whitespace) = false := by simpa using h.not_whitespace
    rw [Token.solid, List.filter_cons_of_pos (by simp [place, takenLexeme, Token.isSpace, hk]),
      List.map_cons, List.map_cons, ← hout]
    rfl

/-- A blank or a line break in front. It is white space of its own or part of the white space
behind it. -/
theorem ReadsAs.blank {b : UInt8} (hb : Byte.isLineBreak b = true ∨ Byte.isBlank b = true)
    {u : Text} {ts : List Token} (hu : ReadsAs u ts) : ReadsAs (b :: u) ts := by
  have hj : Glyph.joinFirst (b :: u) = false := by
    refine joinFirst_of_ne ?_ u
    rintro rfl
    revert hb
    decide
  refine ⟨hj, fun p stop => ?_⟩
  obtain ⟨out, hc, hout⟩ := hu.content (p.after b u) stop
  rw [spliced_cons p hj]
  generalize (spliced (p.after b u) u).2 = gs at hc ⊢
  let g : Glyph := ⟨b, p, (spliced (p.after b u) u).1⟩
  cases hs : space gs with
  | none =>
      obtain ⟨e, he⟩ := pull_of_space_eq_none (l := ⟨gs, stop, false⟩) hs
      rw [Source.content_of_stop he] at hc
      cases hc
  | some s =>
      have hg : space (g :: gs) = some (s.prepend [b] (Byte.isLineBreak b) [g]) := by
        rw [space_of_blank gs hb, hs]
        rfl
      obtain ⟨t, ht, hspace, -⟩ :=
        pull_of_space (l := ⟨g :: gs, stop, false⟩) hg (List.cons_ne_nil _ _)
      rw [Source.content_of_token ht]
      by_cases hnil : s.text = []
      · rw [eq_none_of_space hs hnil]
        refine ⟨t :: out, congrArg (fun c => (_ :: c.1, c.2)) hc, ?_⟩
        rw [Token.solid, List.filter_cons_of_neg (by simp [hspace])]
        exact hout
      · obtain ⟨t', ht', hspace', -⟩ := pull_of_space (l := ⟨gs, stop, false⟩) hs hnil
        rw [Source.content_of_token ht'] at hc
        obtain ⟨rfl, hend⟩ := Prod.mk.inj hc
        refine ⟨_, congrArg (Prod.mk _) hend, ?_⟩
        rw [Token.solid, List.filter_cons_of_neg (by simp [hspace'])] at hout
        rw [Token.solid, List.filter_cons_of_neg (by simp [hspace])]
        exact hout

/-- A stray byte in front, if no bytes behind it make it a character. -/
theorem ReadsAs.stray {t : Token} {b : UInt8} (hk : t.kind = .invalid) (ht : t.text = [b])
    (hb : 0x80 ≤ b) {u : Text} {ts : List Token} (hu : ReadsAs u ts)
    (hno : ∀ p w, (∀ c ∈ w, Utf8.isTail c = true) → w <+: spelling (spliced p u).2 →
      Utf8.decode (b :: w) = none) : ReadsAs (b :: u) (t :: ts) := by
  have hj : Glyph.joinFirst (b :: u) = false := by
    refine joinFirst_of_ne ?_ u
    rintro rfl
    revert hb
    decide
  refine ⟨hj, fun p stop => ?_⟩
  obtain ⟨out, hc, hout⟩ := hu.content (p.after b u) stop
  specialize hno (p.after b u)
  rw [spliced_cons p hj]
  generalize (spliced (p.after b u) u).2 = gs at hc hno ⊢
  let g : Glyph := ⟨b, p, (spliced (p.after b u) u).1⟩
  have hnone : Utf8.decode (unbroken ((g :: gs).take 4)) = none := by
    cases hd : Utf8.decode (unbroken ((g :: gs).take 4)) with
    | none => rfl
    | some c =>
        obtain ⟨n, r⟩ := c
        obtain ⟨a, w, hw, -, htail, -, hchar⟩ := Utf8.decode_eq_some hd
        have hpre : unbroken ((g :: gs).take 4) <+: spelling (g :: gs) :=
          (unbroken_isPrefix _).trans (List.IsPrefix.map byte (List.take_prefix 4 (g :: gs)))
        rw [hw, List.cons_append, spelling_cons, List.cons_prefix_cons] at hpre
        obtain ⟨rfl, hpre⟩ := hpre
        have hsome := hchar []
        rw [List.append_nil, hno w htail ((List.prefix_append w r).trans hpre)] at hsome
        cases hsome
  have hx : lexeme false stop g gs = .ok (spelledLexeme .invalid ⟨[g], gs⟩) := by
    rw [lexeme_of_wide hb, wideLexeme]
    simp only [hnone]
  rw [content_cons hx]
  refine ⟨_, congrArg (fun c => (_ :: c.1, c.2)) hc, ?_⟩
  rw [Token.solid, List.filter_cons_of_pos rfl, List.map_cons, List.map_cons, ← hout,
    show t.word = (.invalid, [b]) by rw [Token.word, hk, ht]]
  rfl

/-- A text as it is printed for `ts`. It is read back as the tokens that are not white space, and
the bytes at its front that can continue a character are bytes of stray tokens. -/
structure Prints (u : Text) (ts : List Token) : Prop extends ReadsAs u (Token.solid ts) where
  tails : ∀ p w, (∀ c ∈ w, Utf8.isTail c = true) → w <+: spelling (spliced p u).2 →
    w <+: Token.strayRun ts

theorem prints_nil : Prints [] [] where
  toReadsAs := readsAs_nil
  tails _ _ _ h := h

/-- What must be true of the text behind a token for the token to be read as it stands. -/
structure Leaves (t : Token) (u : Text) : Prop where
  apart : Spells t.kind t.text → Apart t.text u
  stops : Spells t.kind t.text → ∀ p, Stops t.kind t.text (spelling (spliced p u).2)
  stray : t.kind = .invalid → ∀ p w, (∀ c ∈ w, Utf8.isTail c = true) →
    w <+: spelling (spliced p u).2 → Utf8.decode (t.text ++ w) = none

/-- A text that begins with no byte that continues a character. -/
theorem eq_nil_of_tails {b : UInt8} {u w : Text} {p : Pos} (hj : joinFirst (b :: u) = false)
    (hb : Utf8.isTail b = false) (hw : ∀ c ∈ w, Utf8.isTail c = true)
    (hp : w <+: spelling (spliced p (b :: u)).2) : w = [] := by
  rw [spliced_cons p hj] at hp
  cases w with
  | nil => rfl
  | cons c w =>
      obtain ⟨rfl, -⟩ := List.cons_prefix_cons.1 hp
      have hc := hw _ List.mem_cons_self
      rw [show Utf8.isTail c = false from hb] at hc
      cases hc

theorem ReadsAs.blanks {s : Text}
    (hs : ∀ b ∈ s, Byte.isLineBreak b = true ∨ Byte.isBlank b = true) {u : Text}
    {ts : List Token} (hu : ReadsAs u ts) : ReadsAs (s ++ u) ts := by
  induction s with
  | nil => exact hu
  | cons b s ih =>
      obtain ⟨hb, hs⟩ := List.forall_mem_cons.1 hs
      exact (ih hs).blank hb

/-- A space that is put in between. -/
theorem Prints.space {u : Text} {ts : List Token} (hu : Prints u ts) :
    Prints (Byte.space :: u) ts where
  toReadsAs := hu.toReadsAs.blank (by decide)
  tails p w hw hp := by
    rw [eq_nil_of_tails (joinFirst_of_ne (by decide) u) (by decide) hw hp]
    exact List.nil_prefix

theorem Prints.cons {t : Token} (ht : t.Printable) {u : Text} {ts : List Token} (hu : Prints u ts)
    (hl : Leaves t u) : Prints (t.text ++ u) (t :: ts) := by
  have hsolid (hs : t.isSpace = false) : Token.solid (t :: ts) = t :: Token.solid ts :=
    List.filter_cons_of_pos (by simp [hs])
  -- Only a stray token begins with a byte that can continue a character.
  have htails {b : UInt8} {r : Text} (hb : t.text = b :: r) (hn : Utf8.isTail b = false)
      (hr : ReadsAs (t.text ++ u) (Token.solid (t :: ts))) : Prints (t.text ++ u) (t :: ts) := by
    refine ⟨hr, fun p w hw hp => ?_⟩
    have hj := hr.joinFirst
    rw [hb] at hj hp
    rw [eq_nil_of_tails hj hn hw hp]
    exact List.nil_prefix
  cases ht with
  | spelled h =>
      obtain ⟨b, r, hb⟩ := List.exists_cons_of_ne_nil h.ne_nil
      refine htails hb (hb ▸ h).head_not_isTail ?_
      rw [hsolid (by simp [Token.isSpace, h.not_whitespace])]
      exact hu.token h (hl.apart h) (hl.stops h)
  | space hs hn hall =>
      obtain ⟨b, r, hb⟩ := List.exists_cons_of_ne_nil hn
      have hblank := hall b (by simp [hb])
      refine htails hb (not_isTail_of_blank hblank) ?_
      rw [Token.solid, List.filter_cons_of_neg (by simp [hs])]
      exact hu.toReadsAs.blanks hall
  | @stray b hk hb hle =>
      have hno := hl.stray hk
      rw [hb] at hno ⊢
      have hr := hu.stray hk hb hle hno
      rw [← hsolid (by simp [Token.isSpace, hk])] at hr
      refine ⟨hr, fun p w hw hp => ?_⟩
      rw [Token.strayRun, if_pos hk, hb]
      rw [List.singleton_append, spliced_cons p hr.joinFirst] at hp
      cases w with
      | nil => exact List.nil_prefix
      | cons c w =>
          obtain ⟨rfl, hp⟩ := List.cons_prefix_cons.1 hp
          exact List.cons_prefix_cons.2 ⟨rfl, hu.tails _ w (List.forall_mem_cons.1 hw).2 hp⟩

/-- The tokens behind a stray byte do not make it a character. -/
theorem decode_of_tails {t : Token} {u : Text} {ts : List Token} (hu : Prints u ts)
    (hf : Token.formsCharacter (t :: ts) = false) (hk : t.kind = .invalid) (p : Pos) (w : Text)
    (hw : ∀ c ∈ w, Utf8.isTail c = true) (hp : w <+: spelling (spliced p u).2) :
    Utf8.decode (t.text ++ w) = none := by
  cases hd : Utf8.decode (t.text ++ w) with
  | none => rfl
  | some c =>
      obtain ⟨n, r⟩ := c
      obtain ⟨a, v, hv, -, -, -, hchar⟩ := Utf8.decode_eq_some hd
      obtain ⟨s, hs⟩ := hu.tails p w hw hp
      have hsome := hchar (r ++ s)
      rw [← List.append_assoc, ← hv, List.append_assoc, hs] at hsome
      simp [Token.formsCharacter, hk, hsome] at hf

/-- What is printed for a token and those behind it leaves the token in front as it is. -/
theorem leaves_piece {prev t : Token} (ht : t.Printable) {u : Text} {ts : List Token}
    (hl : Leaves t u) (hu : Prints (piece prev t ++ u) (t :: ts))
    (hj : Token.joinsLine (prev :: t :: ts) = false)
    (hf : Token.formsCharacter (prev :: t :: ts) = false) :
    Leaves prev (piece prev t ++ u) := by
  obtain ⟨b, r, hb⟩ := List.exists_cons_of_ne_nil ht.ne_nil
  refine ⟨fun h => ⟨hu.joinFirst, fun c hc hline => h.getLast?_text ?_⟩, fun h p => ?_,
    decode_of_tails hu hf⟩
  · -- a line break at the front belongs to the token
    rintro hback
    rw [piece] at hc
    split at hc
    · cases hc
      revert hline
      decide
    · rw [hb] at hc
      cases hc
      simp [Token.joinsLine, hback, hb, hline] at hj
  · have hfirst := hu.joinFirst
    rw [piece] at hfirst ⊢
    split at hfirst
    · rename_i hfuse
      rw [List.cons_append] at hfirst
      rw [if_pos hfuse, List.cons_append, spliced_cons p hfirst]
      exact stops_of_outside (b := Byte.space) (by decide) _ _ _
    · rename_i hfuse
      rw [if_neg hfuse]
      rcases ht.outside_or_spells with hspells | hout
      · obtain ⟨g, gs, hsp, -⟩ :=
          lexeme_complete hspells p p (hl.stops hspells (p.atEnd t.text))
        rw [(hl.apart hspells).spliced_append p, hsp, spelling_append]
        exact stops_of_wouldFuse_eq_false h hspells (Bool.eq_false_iff.2 hfuse)
          (opens_of_spliced hspells hsp) (hl.stops hspells _)
      · rw [hb, List.cons_append] at hfirst ⊢
        rw [spliced_cons p hfirst]
        exact stops_of_outside (hout b (by simp [hb])) _ _ _

theorem leaves_nil {t : Token} (hf : Token.formsCharacter [t] = false) : Leaves t [] where
  apart _ := ⟨rfl, fun _ hb => by cases hb⟩
  stops _ _ := stops_nil _ _
  stray := decode_of_tails prints_nil hf

/-- What is printed after a token is read back and leaves the token as it is. -/
theorem prints_piecesAfter {prev : Token} {ts : List Token} (hts : ∀ t ∈ ts, t.Printable)
    (hj : Token.joinsLine (prev :: ts) = false) (hf : Token.formsCharacter (prev :: ts) = false) :
    Prints (piecesAfter prev ts).flatten ts ∧ Leaves prev (piecesAfter prev ts).flatten := by
  induction ts generalizing prev with
  | nil => exact ⟨prints_nil, leaves_nil hf⟩
  | cons t ts ih =>
      obtain ⟨ht, hts⟩ := List.forall_mem_cons.1 hts
      have hj' : Token.joinsLine (t :: ts) = false := (Bool.or_eq_false_iff.1 hj).2
      have hf' : Token.formsCharacter (t :: ts) = false := (Bool.or_eq_false_iff.1 hf).2
      obtain ⟨hu, hl⟩ := ih hts hj' hf'
      rw [piecesAfter, List.flatten_cons]
      have hpiece : Prints (piece prev t ++ (piecesAfter t ts).flatten) (t :: ts) := by
        rw [piece]
        split
        · exact (hu.cons ht hl).space
        · exact hu.cons ht hl
      exact ⟨hpiece, leaves_piece ht hl hpiece hj hf⟩

/-- The text of printable tokens is read back unless a line is joined or a character formed. -/
theorem prints_render {ts : List Token} (hts : ∀ t ∈ ts, t.Printable)
    (hj : Token.joinsLine ts = false) (hf : Token.formsCharacter ts = false) :
    Prints (render ts) ts := by
  cases ts with
  | nil => exact prints_nil
  | cons t ts =>
      obtain ⟨ht, hts⟩ := List.forall_mem_cons.1 hts
      obtain ⟨hu, hl⟩ := prints_piecesAfter hts hj hf
      exact hu.cons ht hl

end Printer
end CPreprocessor

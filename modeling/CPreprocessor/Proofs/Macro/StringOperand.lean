import CPreprocessor.Macro.Substitution
import CPreprocessor.Proofs.Printer.Rendering
import CPreprocessor.Proofs.Source.Unsplicing

/-!
What `#` makes of an argument. The string spells the tokens with one space for all white space
between two of them, and it is read back as one string literal: the quotes and backslashes of
literals get a backslash in front of them, and other tokens hold neither, unless one is a lone
backslash. Taking the added backslashes away gives the spelling again. Line breaks are not encoded,
so that a raw string with one in it makes no literal.
-/

namespace CPreprocessor

/-- A text that spells a token is scanned as that token. -/
theorem tokenize_of_spells {k : Kind} {t : Text} (h : Spells k t) :
    tokenize t = ⟨[{ kind := k, text := t, pos := .start, length := t.length }], none⟩ := by
  have hstops : Stops k t (Glyph.spelling []) := stops_nil k t
  obtain ⟨g, gs, hs, hx⟩ := Lexer.lexeme_complete h .start (Pos.start.atEnd t) hstops
  have hsrc : (g :: gs).flatMap Glyph.source = t := by
    simpa only [hs, List.nil_append] using Glyph.sources_spliced .start t
  have hpos : g.pos = .start := by
    obtain ⟨b, r, rfl⟩ := List.exists_cons_of_ne_nil h.ne_nil
    have hbreak : Byte.isLineBreak g.byte = false := by
      obtain ⟨hd, -⟩ := List.cons.inj hsrc
      exact hd ▸ h.head_noBreak
    rw [Glyph.spliced_cons .start (Glyph.detached_of_spliced hs hbreak).1] at hs
    cases hs
    rfl
  rw [List.append_nil] at hx
  rw [tokenize_eq, Lexer.ofText, hs, Lexer.content_cons hx, hpos]
  simp only [Lexer.takenLexeme, Lexer.content_nil, Lexer.place, ← Glyph.length_sources, hsrc]
  rfl

namespace Token

/-- The tokens between white space, run by run. -/
def runs (ts : List Token) : List (List Token) :=
  (ts.splitOnP isSpace).filter (!·.isEmpty)

/-- The spelling of the tokens with one space for all white space between two of them and with none
at the ends. -/
def spacedSpelling (ts : List Token) : Text :=
  [Byte.space].intercalate ((runs ts).map spelling)

theorem runs_cons_space {t : Token} (ht : t.isSpace = true) (ts : List Token) :
    runs (t :: ts) = runs ts := by
  rw [runs, List.splitOnP_cons_eq_if_modifyHead, if_pos ht]
  rfl

/-- A token that is not white space goes in front of the first run. -/
theorem runs_cons_solid {t : Token} (ht : ¬t.isSpace = true) {ts r : List Token}
    {rs : List (List Token)} (h : ts.splitOnP isSpace = r :: rs) :
    runs (t :: ts) = (t :: r) :: rs.filter (!·.isEmpty) := by
  rw [runs, List.splitOnP_cons_eq_if_modifyHead, if_neg ht, h]
  rfl

theorem mem_of_mem_splitOnP {ts r : List Token} (hr : r ∈ ts.splitOnP isSpace) {t : Token}
    (ht : t ∈ r) : t ∈ ts ∧ t.isSpace = false := by
  induction ts generalizing r with
  | nil =>
      rw [List.splitOnP_nil] at hr
      rw [List.mem_singleton.1 hr] at ht
      cases ht
  | cons u ts ih =>
      obtain ⟨q, qs, hsplit⟩ := List.exists_cons_of_ne_nil (List.splitOnP_ne_nil isSpace ts)
      rw [List.splitOnP_cons_eq_if_modifyHead, hsplit] at hr
      rw [hsplit] at ih
      split at hr
      · obtain rfl | hr := List.mem_cons.1 hr
        · cases ht
        · obtain ⟨hmem, hs⟩ := ih hr ht
          exact ⟨List.mem_cons_of_mem u hmem, hs⟩
      · rename_i hu
        obtain rfl | hr := List.mem_cons.1 hr
        · obtain rfl | ht := List.mem_cons.1 ht
          · exact ⟨List.mem_cons_self, by simpa using hu⟩
          · obtain ⟨hmem, hs⟩ := ih List.mem_cons_self ht
            exact ⟨List.mem_cons_of_mem u hmem, hs⟩
        · obtain ⟨hmem, hs⟩ := ih (List.mem_cons_of_mem q hr) ht
          exact ⟨List.mem_cons_of_mem u hmem, hs⟩

end Token

namespace Substitution

/-- Takes away the backslashes in front of quotes and backslashes. -/
def unescaped : Text → Text
  | b :: c :: t =>
    if b = Byte.backslash ∧ (c = Byte.quote ∨ c = Byte.backslash) then c :: unescaped t
    else b :: unescaped (c :: t)
  | t => t

/-- `Encodes u t` says that `u` stands for `t` inside a string literal. Quotes and backslashes have
a backslash in front of them, and there are no line breaks. -/
inductive Encodes : Text → Text → Prop where
  | nil : Encodes [] []
  | plain {b : UInt8} {u t : Text} : b ≠ Byte.quote → b ≠ Byte.backslash →
      Byte.isLineBreak b = false → Encodes u t → Encodes (b :: u) (b :: t)
  | escape {b : UInt8} {u t : Text} : b = Byte.quote ∨ b = Byte.backslash → Encodes u t →
      Encodes (Byte.backslash :: b :: u) (b :: t)

namespace Encodes

variable {u t : Text}

theorem append {v w : Text} (h : Encodes u t) (hv : Encodes v w) : Encodes (u ++ v) (t ++ w) := by
  induction h with
  | nil => exact hv
  | plain hq hb hl _ ih => exact .plain hq hb hl ih
  | escape hb _ ih => exact .escape hb ih

theorem literalTail (h : Encodes u t) {v : Text} (hv : Spelling.LiteralTail Byte.quote v) :
    Spelling.LiteralTail Byte.quote (u ++ v) := by
  induction h with
  | nil => exact hv
  | plain hq hb hl _ ih => exact .plain hq hl hb ih
  | escape hb _ ih =>
      refine .escape ?_ ih
      obtain rfl | rfl := hb <;> decide

theorem unescaped (h : Encodes u t) : unescaped u = t := by
  induction h with
  | nil => rfl
  | @plain b u t _ hb _ _ ih =>
      cases u with
      | nil =>
          rw [← ih]
          rfl
      | cons c u => rw [Substitution.unescaped, if_neg fun h => hb h.1, ih]
  | escape hb _ ih => rw [Substitution.unescaped, if_pos ⟨rfl, hb⟩, ih]

theorem of_plain (h : ∀ b ∈ t, b ≠ Byte.quote ∧ b ≠ Byte.backslash ∧
    Byte.isLineBreak b = false) :
    Encodes t t := by
  induction t with
  | nil => exact .nil
  | cons b t ih =>
      obtain ⟨⟨hq, hb, hl⟩, h⟩ := List.forall_mem_cons.1 h
      exact .plain hq hb hl (ih h)

theorem of_literal (h : ∀ b ∈ t, Byte.isLineBreak b = false) :
    Encodes (t.flatMap fun b =>
      if b = Byte.quote ∨ b = Byte.backslash then [Byte.backslash, b] else [b]) t := by
  induction t with
  | nil => exact .nil
  | cons b t ih =>
      obtain ⟨hl, h⟩ := List.forall_mem_cons.1 h
      rw [List.flatMap_cons]
      split
      · rename_i hb
        exact .escape hb (ih h)
      · rename_i hb
        obtain ⟨hq, hb⟩ := not_or.1 hb
        exact .plain hq hb hl (ih h)

theorem flatMap {α : Type} {f g : α → Text} {xs : List α}
    (h : ∀ x ∈ xs, Encodes (f x) (g x)) :
    Encodes (xs.flatMap f) (xs.flatMap g) := by
  induction xs with
  | nil => exact .nil
  | cons x xs ih =>
      obtain ⟨hx, h⟩ := List.forall_mem_cons.1 h
      exact hx.append (ih h)

theorem space : Encodes [Byte.space] [Byte.space] :=
  .plain (by decide) (by decide) (by decide) .nil

end Encodes

theorem intercalate_cons {α : Type} (s : α) (x : List α) (xs : List (List α)) :
    [s].intercalate (x :: xs) = x ++ xs.flatMap (s :: ·) := by
  induction xs generalizing x with
  | nil => simp
  | cons y xs ih =>
      rw [List.intercalate_cons_cons, ih, List.flatMap_cons, List.append_assoc]
      rfl

theorem Encodes.intercalate {α : Type} {f g : α → Text} {xs : List α}
    (h : ∀ x ∈ xs, Encodes (f x) (g x)) :
    Encodes ([Byte.space].intercalate (xs.map f)) ([Byte.space].intercalate (xs.map g)) := by
  cases xs with
  | nil => exact .nil
  | cons x xs =>
      obtain ⟨hx, h⟩ := List.forall_mem_cons.1 h
      simp only [List.map_cons, intercalate_cons, List.flatMap_map]
      exact hx.append (.flatMap fun y hy => Encodes.space.append (h y hy))

/-- What is written after the first token, by the runs of what is left: with a space in front of
every run but the one that goes on. -/
theorem stringBody_started {ts : List Token} {r : List Token} {rs : List (List Token)}
    (h : ts.splitOnP Token.isSpace = r :: rs) :
    stringBody false true ts =
        r.flatMap escaped ++
          (rs.filter (!·.isEmpty)).flatMap (Byte.space :: ·.flatMap escaped) ∧
      stringBody true true ts =
        ((r :: rs).filter (!·.isEmpty)).flatMap (Byte.space :: ·.flatMap escaped) := by
  induction ts generalizing r rs with
  | nil =>
      rw [List.splitOnP_nil] at h
      cases h
      exact ⟨rfl, rfl⟩
  | cons t ts ih =>
      obtain ⟨r', rs', hsplit⟩ :=
        List.exists_cons_of_ne_nil (List.splitOnP_ne_nil Token.isSpace ts)
      obtain ⟨ihfalse, ihtrue⟩ := ih hsplit
      -- White space begins a new run; any other token goes in front of the first one.
      rw [List.splitOnP_cons_eq_if_modifyHead, hsplit] at h
      by_cases hs : t.isSpace = true
      · rw [if_pos hs] at h
        cases h
        simp only [stringBody, if_pos hs, ihtrue]
        exact ⟨rfl, rfl⟩
      · rw [if_neg hs] at h
        cases h
        simp only [stringBody, if_neg hs, Bool.true_or, ihfalse]
        constructor <;> simp

/-- The contents of the string, run by run. -/
theorem stringBody_eq {ts : List Token} (h : ∀ t ∈ ts, t.isSpace = false → escaped t ≠ [])
    (space : Bool) :
    stringBody space false ts =
      [Byte.space].intercalate ((Token.runs ts).map (·.flatMap escaped)) := by
  induction ts generalizing space with
  | nil => rfl
  | cons t ts ih =>
      obtain ⟨ht, h⟩ := List.forall_mem_cons.1 h
      obtain ⟨r, rs, hsplit⟩ :=
        List.exists_cons_of_ne_nil (List.splitOnP_ne_nil Token.isSpace ts)
      by_cases hs : t.isSpace = true
      · simp only [stringBody, if_pos hs, ih h, Token.runs_cons_space hs]
      · have hstarted : (escaped t != []) = true := bne_iff_ne.2 (ht (by simpa using hs))
        simp only [stringBody, if_neg hs, Bool.and_false, Bool.false_or, hstarted,
          Token.runs_cons_solid hs hsplit, (stringBody_started hsplit).1, List.map_cons,
          intercalate_cons, List.flatMap_map]
        simp

end Substitution

theorem Spells.character_noBreak {t : Text} (h : Spells .character t) :
    ∀ b ∈ t, Byte.isLineBreak b = false := by
  cases h with
  | literal hq hl h => exact Lexer.noBreak_of_literal hq hl h

/-- A lone backslash is a punctuator. -/
theorem Spells.kind_of_backslash {k : Kind} (h : Spells k [Byte.backslash]) : k = .punctuator := by
  obtain ⟨b, r, hb, hf⟩ := h.exists_first
  obtain ⟨rfl, -⟩ := List.cons.inj hb
  cases k <;> first | rfl | cases hf

namespace Substitution

theorem encodes_escaped {t : Token} (ht : t.Printable) (hs : t.isSpace = false)
    (hback : t.isPunct (ascii "\\") = false)
    (hbreak : t.kind = .string → ∀ b ∈ t.text, Byte.isLineBreak b = false) :
    Encodes (escaped t) t.text := by
  rw [escaped]
  split
  · rename_i hk
    refine .of_literal ?_
    obtain hk | hk := hk
    · exact hbreak hk
    · cases ht with
      | spelled h => exact (hk ▸ h).character_noBreak
      | space h => simp [hs] at h
      | stray h => simp [hk] at h
  · rename_i hk
    refine .of_plain ?_
    cases ht with
    | spelled h =>
        refine h.bytes_of_not_literal hk fun htext => ?_
        rw [htext] at h
        rw [Token.isPunct, h.kind_of_backslash, htext] at hback
        revert hback
        decide
    | space h => simp [hs] at h
    | stray _ hb hle =>
        obtain ⟨hl, -, -, -, -, hq, -, hback⟩ := Byte.of_le hle
        rw [hb]
        exact List.forall_mem_singleton.2 ⟨hq, hback, hl⟩

theorem escaped_ne_nil {t : Token} (h : Encodes (escaped t) t.text) (ht : t.text ≠ []) :
    escaped t ≠ [] := by
  intro he
  rw [he] at h
  exact ht h.unescaped.symm

theorem encodes_stringBody {ts : List Token}
    (h : ∀ t ∈ ts, t.isSpace = false → t.text ≠ [] ∧ Encodes (escaped t) t.text) :
    Encodes (stringBody false false ts) (Token.spacedSpelling ts) := by
  rw [stringBody_eq fun t ht hs => escaped_ne_nil (h t ht hs).2 (h t ht hs).1, Token.spacedSpelling]
  refine .intercalate fun r hr => .flatMap fun t ht => ?_
  obtain ⟨hmem, hs⟩ := Token.mem_of_mem_splitOnP (List.mem_filter.1 hr).1 ht
  exact (h t hmem hs).2

/-- The string made of tokens as a scanner gives them, without lone backslashes and without line
breaks in literals, is one string literal, and it encodes their spelling. -/
theorem tokenize_stringOf {ts : List Token}
    (hts : ∀ t ∈ ts, ∃ src, t ∈ (tokenize src).tokens)
    (hback : ∀ t ∈ ts, t.isPunct (ascii "\\") = false)
    (hbreak : ∀ t ∈ ts, t.kind = .string → ∀ b ∈ t.text, Byte.isLineBreak b = false)
    (pos : Pos) :
    let s := stringOf pos ts
    tokenize s.text = ⟨[{ s with pos := .start, length := s.text.length }], none⟩ ∧
      unescaped (s.text.drop 1).dropLast = Token.spacedSpelling ts := by
  have hbody : Encodes (stringBody false false ts) (Token.spacedSpelling ts) := by
    refine encodes_stringBody fun t ht hs => ?_
    obtain ⟨src, hsrc⟩ := hts t ht
    have hprint := Token.printable_of_mem_tokenize hsrc
    exact ⟨hprint.ne_nil, encodes_escaped hprint hs (hback t ht) (hbreak t ht)⟩
  -- There are no encoding letters in front of the quote.
  have hspells : Spells .string ([] ++ Byte.quote :: (stringBody false false ts ++ [Byte.quote])) :=
    .literal .string (by decide) (hbody.literalTail .close)
  refine ⟨tokenize_of_spells hspells, ?_⟩
  rw [← hbody.unescaped]
  simp [stringOf]

/-- A backslash in a raw string, a quote in a character constant and a comment between them. -/
theorem tokenize_stringOf_literals :
    let src := ascii " R\"(\\)\" /**/'\\\"' "
    let ts : List Token :=
      [{ kind := .whitespace, text := ascii " ", pos := ⟨0, 1, 1⟩, length := 1 },
        { kind := .string, text := ascii "R\"(\\)\"", pos := ⟨1, 1, 2⟩, length := 6 },
        { kind := .whitespace, text := ascii "  ", pos := ⟨7, 1, 8⟩, length := 5 },
        { kind := .character, text := ascii "'\\\"'", pos := ⟨12, 1, 13⟩, length := 4 },
        { kind := .whitespace, text := ascii " ", pos := ⟨16, 1, 17⟩, length := 1 }]
    let s := stringOf {} ts
    tokenize src = ⟨ts, none⟩ ∧
      (∀ t ∈ ts, t.isPunct (ascii "\\") = false) ∧
      (∀ t ∈ ts, t.kind = .string → ∀ b ∈ t.text, Byte.isLineBreak b = false) ∧
      s.text = ascii "\"R\\\"(\\\\)\\\" '\\\\\\\"'\"" ∧
      tokenize s.text = ⟨[{ s with pos := .start, length := s.text.length }], none⟩ ∧
      unescaped (s.text.drop 1).dropLast = ascii "R\"(\\)\" '\\\"'" := by
  intro src ts s
  have hsrc : tokenize src = ⟨ts, none⟩ := by
    have hcontent : Source.content (Lexer.ofText src) = (ts, .eof) :=
      Source.content_of_runWithin (n := 17) (by decide +kernel)
    rw [tokenize_eq, hcontent]
    rfl
  have hback : ∀ t ∈ ts, t.isPunct (ascii "\\") = false := by decide
  have hall : (ts.all fun t => t.text.all fun b => !Byte.isLineBreak b) = true := by decide
  have hbreak : ∀ t ∈ ts, t.kind = .string → ∀ b ∈ t.text, Byte.isLineBreak b = false :=
    fun t ht _ b hb => by simpa using List.all_eq_true.1 (List.all_eq_true.1 hall t ht) b hb
  have hspelling : Token.spacedSpelling ts = ascii "R\"(\\)\" '\\\"'" := by decide
  obtain ⟨hs, hu⟩ :=
    tokenize_stringOf (fun t ht => ⟨src, by rw [hsrc]; exact ht⟩) hback hbreak {}
  exact ⟨hsrc, hback, hbreak, by decide, hs, hu.trans hspelling⟩

end Substitution
end CPreprocessor

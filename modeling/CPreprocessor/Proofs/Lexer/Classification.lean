import CPreprocessor.Proofs.Lexer.TolerantScan
import CPreprocessor.Proofs.Printer.Rendering
import Mathlib.Data.List.Chain

/-!
Lexical classes. The text of every token of a scan belongs to the class of its kind, white space
is never cut into two tokens, and a line break is part of white space or of a raw string. The
classes are stated on texts and do not mention the scanner, raw strings included: these are read
off the source with its line joins, and the first text that closes them is their end.
-/

namespace CPreprocessor
namespace Spelling

/-- A text that goes on until it ends in `c` for the first time. -/
structure ClosedBy (c t : Text) : Prop where
  closes : c <:+ t
  first : ∀ u v, t = u ++ c ++ v → v = []

/-- What may stand between the opening quote of a raw string and its parenthesis. -/
structure Delimiter (d : Text) : Prop where
  short : d.length ≤ Lexer.maxDelimiter
  fits : ∀ b ∈ d, Lexer.isBadDelimiter b = false ∧ b ≠ '('.toUInt8

/-- What closes a raw string with the delimiter `d`. -/
def closer (d : Text) : Text :=
  ')'.toUInt8 :: d ++ [Byte.quote]

/-- A raw string from its opening quote through its closing one. -/
def RawLiteral (t : Text) : Prop :=
  ∃ d body, t = Byte.quote :: d ++ '('.toUInt8 :: body ∧ Delimiter d ∧
    ClosedBy (closer d) body

theorem closer_ne_nil (d : Text) : closer d ≠ [] :=
  List.cons_ne_nil _ _

theorem ClosedBy.rfl {t : Text} : ClosedBy t t where
  closes := List.suffix_rfl
  first u v h := by
    have hl := congrArg List.length h
    simp only [List.length_append] at hl
    exact List.length_eq_zero_iff.1 (by omega)

/-- Line joins in front are no part of what closes a text. -/
theorem ClosedBy.append {c joins t : Text} (hn : c ≠ [])
    (hc : ∀ b ∈ c, Lexer.isJoinByte b = false) (hj : ∀ b ∈ joins, Lexer.isJoinByte b = true)
    (h : ClosedBy c t) : ClosedBy c (joins ++ t) where
  closes := h.closes.trans (List.suffix_append joins t)
  first u v huv := by
    obtain ⟨u', hu'⟩ := Lexer.exists_append_of_joins hn hc hj huv
    exact h.first u' v hu'

end Spelling

namespace Token

open Spelling

/-- The text of a token is in the class of its kind. A kind that no scanner assigns has none. -/
def InClass (t : Token) : Prop :=
  match t.kind with
  | .unclassified => False
  | .whitespace => t.text ≠ [] ∧
      (∀ b ∈ t.text, Byte.isLineBreak b = true ∨ Byte.isBlank b = true) ∧
      t.newline = t.text.any Byte.isLineBreak
  | .identifier => IsIdentifier t.text
  | .number => IsNumber t.text
  | .character => ∃ letters ∈ charsets, ∃ tail, LiteralTail Byte.apostrophe tail ∧
      t.text = letters ++ Byte.apostrophe :: tail
  | .string => (∃ letters ∈ charsets, ∃ tail, LiteralTail Byte.quote tail ∧
        t.text = letters ++ Byte.quote :: tail) ∨
      ∃ letters ∈ rawLetters, ∃ tail, RawLiteral tail ∧ t.text = letters ++ tail
  | .punctuator => t.text ∈ Vocabulary.punctuators ∨ ∃ n, Utf8.decode t.text = some (n, [])
  | .invalid => ∃ b, 0x80 ≤ b ∧ t.text = [b]

end Token

namespace Lexer

open Glyph Spelling

section RawStrings

theorem verbatim_of_contiguous {t : Text} {gs : List Glyph} {c : Cut} (hn : t ≠ [])
    (h : contiguous t gs = some c) : verbatim c.taken = t := by
  fun_induction contiguous t gs generalizing c with
  | case1 => contradiction
  | case2 | case4 | case6 => cases h
  | case3 g gs =>
      cases h
      rfl
  | case5 b t g gs ht hg ih =>
      obtain ⟨d, hd, rfl⟩ := Option.map_eq_some_iff.1 h
      have hv := ih ht hd
      have hne : d.taken ≠ [] := by
        rintro hnil
        rw [hnil] at hv
        exact ht hv.symm
      rw [Cut.taken_prepend, List.singleton_append, verbatim_cons g hne, hv, source, hg.1, hg.2]
      rfl

/-- The glyphs of a text are its bytes and the joins behind the last of them. -/
theorem exists_sources_eq (gs : List Glyph) :
    ∃ joins, gs.flatMap source = verbatim gs ++ joins := by
  obtain rfl | ⟨gs, g, rfl⟩ := List.eq_nil_or_concat gs
  · exact ⟨[], rfl⟩
  · refine ⟨g.splices, ?_⟩
    rw [List.concat_eq_append, verbatim_concat, List.flatMap_append, List.flatMap_singleton, source,
      List.append_assoc]
    rfl

/-- The body of a raw string ends where it is closed for the first time. -/
theorem closedBy_of_rawBody {c : Text} (hn : c ≠ []) (hc : ∀ b ∈ c, isJoinByte b = false)
    {gs : List Glyph} (hj : JoinsOnly gs) (h : rawBody c gs = some ⟨gs, []⟩) :
    ClosedBy c (verbatim gs) := by
  induction gs with
  | nil => cases h
  | cons g gs ih =>
      obtain ⟨hg, hj'⟩ := List.forall_mem_cons.1 hj
      rw [rawBody] at h
      split at h
      · rename_i d hd
        cases h
        rw [verbatim_of_contiguous hn hd]
        exact .rfl
      · rename_i hnone
        obtain ⟨d, hd, he⟩ := Option.map_eq_some_iff.1 h
        rw [prepend_eq_mk he] at hd
        have hclosed := ih hj' hd
        have hne : gs ≠ [] := by
          rintro rfl
          cases hd
        rw [verbatim_cons g hne]
        refine ⟨hclosed.closes.trans (List.suffix_append _ _), fun u v huv => ?_⟩
        cases u with
        | nil =>
            -- the scanner looked for the closing text here and did not find it
            obtain ⟨joins, hs⟩ := exists_sources_eq (g :: gs)
            rw [verbatim_cons g hne, huv, List.nil_append, List.append_assoc] at hs
            obtain ⟨e, hsome⟩ := contiguous_of_sources hj hc hs
            rw [hnone] at hsome
            cases hsome
        | cons b u =>
            rw [source, List.cons_append] at huv
            exact (hclosed.append hn hc hg).first u v (List.cons.inj huv).2

theorem sources_of_splices {gs : List Glyph} (h : ∀ g ∈ gs, g.splices = []) :
    gs.flatMap source = spelling gs := by
  induction gs with
  | nil => rfl
  | cons g gs ih =>
      obtain ⟨hg, h⟩ := List.forall_mem_cons.1 h
      rw [List.flatMap_cons, ih h, source, hg]
      rfl

theorem rawLiteral_of_isRaw {t : Text} (h : IsRaw t) : RawLiteral t := by
  obtain ⟨q, gs, hsp, hq, rfl, hraw⟩ := h .start
  have hj : JoinsOnly gs := fun g hg =>
    (joinsOnly_spliced .start _).2 g (by rw [hsp]; exact List.mem_cons_of_mem q hg)
  obtain ⟨ds, o, bs, ⟨bs', rest⟩, rfl, hd, hb, hc⟩ := rawString_eq_ok hraw
  obtain ⟨hqs, hlength, hds⟩ := delimiter_of_rawDelimiter hd
  obtain ⟨_, _, ho, hopen⟩ := rawDelimiter_rest hd
  cases ho
  obtain rfl : rest = [] := (congrArg Cut.rest hc).symm
  obtain rfl : bs' = bs := by simpa using whole_of_rawBody hb
  obtain ⟨ho, hbs⟩ := List.forall_mem_cons.1 (List.forall_mem_append.1 hj).2
  have hdelim : Delimiter (spelling ds) :=
    ⟨by simpa [spelling] using hlength, by simpa [spelling] using fun g hg => (hds g hg).2⟩
  have hjoin : ∀ b ∈ closer (spelling ds), isJoinByte b = false := isJoinByte_closer hdelim.fits
  have hclosed := closedBy_of_rawBody (closer_ne_nil _) hjoin hbs hb
  have hne : bs' ≠ [] := by
    rintro rfl
    cases hb
  refine ⟨spelling ds, o.splices ++ verbatim bs', ?_, hdelim, ?_⟩
  · rw [← List.cons_append, verbatim_append (q :: ds) (List.cons_ne_nil o bs'),
      List.flatMap_cons, sources_of_splices fun g hg => (hds g hg).1, verbatim_cons o hne,
      source, source, hq, hqs, hopen]
    rfl
  · exact hclosed.append (closer_ne_nil _) hjoin ho

end RawStrings

section Spaces

variable {tolerant : Bool} {stop : Pos}

/-- A run of white space ends a line if there is a line break in its text. -/
theorem newline_of_space {gs : List Glyph} {s : Space} (h : space gs = some s) :
    s.newline = s.text.any Byte.isLineBreak := by
  fun_induction space gs generalizing s with
  | case1 | case4 =>
      cases h
      rfl
  | case2 g gs hg ih | case3 g gs hg _ ih =>
      obtain ⟨d, hd, rfl⟩ := Option.map_eq_some_iff.1 h
      simp [Space.prepend, hg, ih hd]
  | case5 => cases h
  | case6 g gs _ _ c hc ih =>
      obtain ⟨d, hd, rfl⟩ := Option.map_eq_some_iff.1 h
      have hspace : Byte.isLineBreak Byte.space = false := by decide
      simp [Space.prepend, hspace, ih hd]

/-- White space is taken as far as it goes. -/
theorem space_rest {gs : List Glyph} {s : Space} (h : space gs = some s) :
    space s.cut.rest = some (.none s.cut.rest) := by
  fun_induction space gs generalizing s with
  | case1 =>
      cases h
      rw [Space.none, space]
  | case2 _ _ _ ih | case3 _ _ _ _ ih | case6 _ _ _ _ _ _ ih =>
      obtain ⟨d, hd, rfl⟩ := Option.map_eq_some_iff.1 h
      exact @ih d hd
  | case4 g gs hb hl hc =>
      cases h
      exact space_of_absent hb hl hc
  | case5 => cases h

/-- The lexeme behind white space is no white space. -/
theorem kind_ne_whitespace_of_rest {g g' : Glyph} {gs gs' : List Glyph} {x y : Lexeme}
    (hx : lexeme tolerant stop g gs = .ok x) (hk : x.kind = .whitespace)
    (hr : x.cut.rest = g' :: gs') (hy : lexeme tolerant stop g' gs' = .ok y) :
    y.kind ≠ .whitespace := by
  obtain ⟨s, hs, -, rfl⟩ := space_of_lexeme hx hk
  have hrest := space_rest hs
  rw [hr] at hrest
  rw [lexeme, hrest] at hy
  exact kind_ne_whitespace_of_solidLexeme hy

theorem isChain_content (gs : List Glyph) :
    (Source.content (⟨gs, stop, tolerant⟩ : Lexer)).1.IsChain
      fun t u => t.isSpace = true → u.isSpace = false := by
  induction gs using lexeme_induction stop tolerant with
  | nil =>
      rw [content_nil]
      exact .nil
  | error g gs e h =>
      rw [content_error h]
      exact .nil
  | token g gs x h ih =>
      rw [content_cons h]
      refine List.isChain_cons.2 ⟨fun u hu hspace => ?_, ih⟩
      have hk : x.kind = .whitespace := by simpa [Token.isSpace, place] using hspace
      cases hr : x.cut.rest with
      | nil =>
          rw [hr, content_nil] at hu
          cases hu
      | cons g' gs' =>
          cases hy : lexeme tolerant stop g' gs' with
          | error e =>
              rw [hr, content_error hy] at hu
              cases hu
          | ok y =>
              rw [hr, content_cons hy] at hu
              cases hu
              simpa [Token.isSpace, place] using kind_ne_whitespace_of_rest h hk hr hy

end Spaces

end Lexer

namespace Token

open Spelling

variable {t : Token}

theorem inClass_of_spells (h : Spells t.kind t.text) : t.InClass := by
  obtain ⟨kind, text, pos, length, newline⟩ := t
  cases h with
  | identifier h => exact h
  | number h => exact h
  | @literal _ mark letters tail hq hl h =>
      cases hq with
      | string => exact .inl ⟨letters, hl, tail, h, rfl⟩
      | character => exact ⟨letters, hl, tail, h, rfl⟩
  | @raw letters tail hl h => exact .inr ⟨letters, hl, tail, Lexer.rawLiteral_of_isRaw h, rfl⟩
  | punctuator h => exact .inl h
  | @single b h =>
      refine .inr ⟨b.toNat, ?_⟩
      simp [Utf8.decode, lt_of_isSingle h]
  | @wide b tail n _ h => exact .inr ⟨n, h⟩

theorem Printable.inClass (h : t.Printable)
    (hn : t.isSpace = true → t.newline = t.text.any Byte.isLineBreak) : t.InClass := by
  cases h with
  | spelled h => exact inClass_of_spells h
  | space hs hne hall =>
      have hk : t.kind = .whitespace := by simpa [isSpace] using hs
      rw [InClass, hk]
      exact ⟨hne, hall, hn hs⟩
  | @stray b hk ht hb =>
      rw [InClass, hk]
      exact ⟨b, hb, ht⟩

theorem noBreak_or_isRaw (h : Spells t.kind t.text) :
    (∀ b ∈ t.text, Byte.isLineBreak b = false) ∨ t.isRaw = true := by
  generalize hk : t.kind = kind at h
  generalize ht : t.text = text at h ⊢
  cases h with
  | identifier h => exact .inl (Lexer.noBreak_of_isIdent (Lexer.noBreak_of_isIdentifier h))
  | number h => exact .inl (Lexer.noBreak_of_isNumber h)
  | literal hq hl h => exact .inl (Lexer.noBreak_of_literal hq hl h)
  | @raw letters tail hl h =>
      obtain ⟨d, body, rfl, -⟩ := Lexer.rawLiteral_of_isRaw h
      exact .inr (isRaw_of_letters hk hl ht)
  | punctuator h => exact .inl (Spells.punctuator h).punctuator_noBreak
  | single h => exact .inl (Spells.single h).punctuator_noBreak
  | wide hb h => exact .inl (Spells.wide hb h).punctuator_noBreak

/-- Line breaks are in white space and in raw strings. -/
theorem Printable.isSpace_or_isRaw (h : t.Printable) {b : UInt8} (hb : b ∈ t.text)
    (hbreak : Byte.isLineBreak b = true) : t.isSpace = true ∨ t.isRaw = true := by
  cases h with
  | spelled h =>
      refine .inr ((noBreak_or_isRaw h).resolve_left fun hall => ?_)
      rw [hall b hb] at hbreak
      cases hbreak
  | space hs _ _ => exact .inl hs
  | stray _ ht hle =>
      rw [ht, List.mem_singleton] at hb
      rw [hb, (Byte.of_le hle).1] at hbreak
      cases hbreak

end Token

/-- The tokens of a scan belong to the classes of their kinds. No two in a row are white space,
and only white space and raw strings have line breaks. -/
theorem inClass_tokenize (src : Text) :
    (∀ t ∈ (tokenize src).tokens, t.InClass) ∧
    ((tokenize src).tokens.IsChain fun t u => t.isSpace = true → u.isSpace = false) ∧
    ∀ t ∈ (tokenize src).tokens, ∀ b ∈ t.text, Byte.isLineBreak b = true →
      t.isSpace = true ∨ t.isRaw = true := by
  refine ⟨fun t ht => ?_, ?_, fun t ht b hb hbreak => ?_⟩
  · refine (Token.printable_of_mem_tokenize ht).inClass ?_
    rw [tokenize_eq] at ht
    refine Lexer.forall_mem_content (P := fun t => t.isSpace = true →
      t.newline = t.text.any Byte.isLineBreak) (fun g gs x _ h hs => ?_) ⟨.start, src, rfl⟩ t ht
    obtain ⟨s, hspace, -, rfl⟩ :=
      Lexer.space_of_lexeme h (by simpa [Token.isSpace, Lexer.place] using hs)
    exact Lexer.newline_of_space hspace
  · rw [tokenize_eq]
    exact Lexer.isChain_content _
  · exact (Token.printable_of_mem_tokenize ht).isSpace_or_isRaw hb hbreak

end CPreprocessor

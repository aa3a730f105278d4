import CPreprocessor.Proofs.Directive.Closure
import CPreprocessor.Proofs.Preprocessor.Run
import CPreprocessor.Proofs.Printer.Rendering

/-!
The text of a preprocessed source against its tokens. All tokens come from a scanner, except for
the strings that `#` makes, so that the text is read back as the tokens it was printed for. This
fails in three cases, which the printer does not see: a backslash meets a line break where
nothing is left between them, stray bytes come to stand side by side and are a character, or a
string that `#` has made is no string literal.
-/

namespace CPreprocessor

/-- A token as a scanner gives it, or a string. -/
def Token.Regular (t : Token) : Prop :=
  t.kind = .string ∨ t.Printable

/-- White space is as a scanner gives it. -/
theorem Token.Regular.space {t : Token} (h : t.Regular) (hs : t.isSpace = true) :
    t.text ≠ [] ∧ ∀ b ∈ t.text, Byte.isLineBreak b = true ∨ Byte.isBlank b = true := by
  have hk : t.kind = .whitespace := beq_iff_eq.1 hs
  rcases h with h | h
  · rw [hk] at h
    cases h
  · cases h with
    | spelled h => exact absurd hk h.not_whitespace
    | space _ hn hall => exact ⟨hn, hall⟩
    | stray h _ _ =>
        rw [hk] at h
        cases h

namespace Lexer

theorem gives_regular : Gives Token.Regular := by
  intro l l₁ t hr h hs
  unfold pull at h
  split at h
  · cases h
  · rename_i g gs hg
    split at h
    · rename_i x hx
      cases h
      rw [hg] at hr
      exact .inr (printable_of_lexeme hr hx (hs.imp_right fun hs => beq_iff_eq.1 hs))
    · cases h

end Lexer

theorem Substitution.spells_of_paste {l r t : Token} (h : paste l r = .ok t) :
    Spells t.kind t.text := by
  unfold paste at h
  split at h
  · rename_i u hu
    split at h
    · cases h
    · rename_i hk
      cases h
      obtain ⟨hw, hi⟩ := not_or.1 hk
      have hmem : u ∈ (tokenize (l.text ++ r.text)).tokens := by
        rw [hu]
        exact List.mem_cons_self
      exact (spells_of_mem_tokenize hmem (by simpa [Token.isSpace] using hw) hi :
        Spells u.kind u.text)
  · cases h

theorem closed_regular : Token.Closed Token.Regular where
  space _ := .inr (.space rfl (List.cons_ne_nil _ _) (List.forall_mem_singleton.2 (by decide)))
  comma _ := .inr (.spelled (.single (by decide)))
  string _ _ := .inl rfl
  paste _ _ h := .inr (.spelled (Substitution.spells_of_paste h))

theorem cuts_regular : Directive.Cuts Token.Regular := by
  intro t ht hs u hu
  obtain ⟨-, hall⟩ := ht.space hs
  unfold Directive.lineBreak at hu
  simp only at hu
  split at hu
  · cases hu
  · rename_i hn
    obtain rfl := List.mem_singleton.1 hu
    refine .inr (.space hs ?_ fun b hb => ?_)
    · exact hn
    · exact hall b ((List.dropWhile_suffix _).subset hb)

namespace Token

/-- Whether the text of a token, scanned alone, is the token again. -/
def rereads (t : Token) : Bool :=
  (tokenize t.text).error.isNone && (tokenize t.text).tokens.map word == [t.word]

theorem spells_of_rereads {t : Token} (h : t.rereads = true) (hs : t.isSpace = false)
    (hi : t.kind ≠ .invalid) : Spells t.kind t.text := by
  have hword := beq_iff_eq.1 (Bool.and_eq_true_iff.1 h).2
  obtain ⟨u, us, hu, huw, -⟩ := List.map_eq_cons_iff.1 hword
  obtain ⟨hk, ht⟩ := Prod.mk.inj huw
  have hmem : u ∈ (tokenize t.text).tokens := by
    rw [hu]
    exact List.mem_cons_self
  rw [← hk] at hi
  rw [isSpace, ← hk] at hs
  have hspells := spells_of_mem_tokenize hmem hs hi
  rwa [hk, ht] at hspells

end Token

namespace Preprocessor

variable {p p' : Preprocessor} {name src : Text} {ts : List Token}

/-- A regular table gives regular tokens and is left regular. -/
theorem regular_of_runs (hT : p.table.All Token.Regular) {e : End}
    {y : ExpandedText (ActiveText Lexer)} (h : Source.Runs (p.expandedText src) ts e y) :
    (∀ t ∈ ts, t.Regular) ∧ y.table.All Token.Regular := by
  have hkeeps := ActiveText.keeps cuts_regular Lexer.gives_regular
  obtain ⟨hts, hy⟩ := (ExpandedText.keeps closed_regular hkeeps).runs h
    (.ofSource (.ofText hT src p.keepUnknown))
  exact ⟨hts, hy.input.source.table⟩

theorem regular_execute (hT : p.table.All Token.Regular) (src : Text) :
    (p.execute src).2.table.All Token.Regular := by
  obtain ⟨ts, e, x, h⟩ := Source.Runs.exists_runs
    (ActiveText.ofSource (Lexer.ofText src) p.table false)
  have hx := (ActiveText.keeps cuts_regular Lexer.gives_regular).runs h (.ofText hT src false)
  simp only [execute, h.drain]
  exact hx.2.table

/-- Predefined macros are regular. -/
theorem regular_predefine (hT : p.table.All Token.Regular) (defines undefs : List Text) :
    (p.predefine defines undefs).2.table.All Token.Regular := by
  have heach {op : Text → Preprocessor → Option Error × Preprocessor}
      (hop : ∀ {p : Preprocessor} (t : Text), p.table.All Token.Regular →
        (op t p).2.table.All Token.Regular) {p : Preprocessor} (hT : p.table.All Token.Regular)
      (ts : List Text) : (p.each op ts).2.table.All Token.Regular := by
    induction ts generalizing p with
    | nil => exact hT
    | cons t ts ih =>
        have ht := hop t hT
        rw [each]
        split
        · rename_i hx
          rwa [hx] at ht
        · rename_i hx
          rw [hx] at ht
          exact ih ht
  have hdefines := @heach define (fun t hT => regular_execute hT _) p hT defines
  unfold predefine
  split
  · rename_i hx
    rwa [hx] at hdefines
  · rename_i hx
    rw [hx] at hdefines
    exact @heach undef (fun t hT => regular_execute hT _) _ hdefines undefs

/-- Printing a source prints the tokens it has. -/
theorem advance_print {events : List Directive.Event} {e : Option Error}
    (h : p.run name src = (⟨ts, e⟩, events, p')) :
    ∃ r, p.advance TokenStream.print (p.start name src) = ((Printer.render ts, e), r, p') := by
  have hout : (p.advance TokenStream.drain (p.start name src)).1 = ⟨ts, e⟩ :=
    congrArg Prod.fst h
  have hleft : (p.advance TokenStream.drain (p.start name src)).2.2 = p' :=
    congrArg (fun x => x.2.2) h
  have hprint : p.advance TokenStream.print (p.start name src) =
      ((Printer.render (p.advance TokenStream.drain (p.start name src)).1.tokens,
          (p.advance TokenStream.drain (p.start name src)).1.error),
        (p.advance TokenStream.drain (p.start name src)).2) := rfl
  rw [hprint, hout, ← hleft]
  exact ⟨_, rfl⟩

/-- The text of a source that is preprocessed without an error is scanned without an error, and
it has the words of the tokens, unless lines are joined in it, characters formed, or strings
made that are none. The macros left are regular again. -/
theorem tokenize_print {events : List Directive.Event} (hT : p.table.All Token.Regular)
    (h : p.run name src = (⟨ts, none⟩, events, p'))
    (hstring : ∀ t ∈ ts, t.kind = .string → t.rereads = true)
    (hjoin : Token.joinsLine ts = false) (hchar : Token.formsCharacter ts = false) :
    (∃ r, p.advance TokenStream.print (p.start name src) = ((Printer.render ts, none), r, p')) ∧
      (tokenize (Printer.render ts)).error = none ∧
      (Token.solid (tokenize (Printer.render ts)).tokens).map Token.word =
        (Token.solid ts).map Token.word ∧
      p'.table.All Token.Regular := by
  obtain ⟨y, hy, rfl⟩ := runs_of_run h
  obtain ⟨hts, htable⟩ := regular_of_runs hT hy
  have hprintable : ∀ t ∈ ts, t.Printable := by
    intro t ht
    rcases hts t ht with hk | hprint
    · exact .spelled (Token.spells_of_rereads (hstring t ht hk) (by simp [Token.isSpace, hk])
        (by simp [hk]))
    · exact hprint
  obtain ⟨herror, hwords⟩ := (Printer.prints_render hprintable hjoin hchar).tokenize
  exact ⟨advance_print h, herror, hwords, htable⟩

namespace Sample

/-- Tokens between which a macro vanishes: signs, a string, a backslash and a stray byte. -/
def vanishing : Text :=
  ascii "#define E\n#define M -\nM-M\"s\"E\\E x " ++ [0xC3] ++ ascii "E+\n"

/-- What is printed for them. -/
def printed : Text :=
  ascii "\n\n- - -\"s\"\\ x " ++ [0xC3] ++ ascii "+\n"

/-- A backslash and a line end with a macro between them that vanishes. -/
def joining : Text :=
  ascii "#define E\n\\E\n"

end Sample

/-- Neither the backslash nor the stray byte has anything behind it to go wrong with. -/
theorem tokenize_print_sample :
    ∃ ts events, ∃ p' : Preprocessor,
      ({} : Preprocessor).run [] Sample.vanishing = (⟨ts, none⟩, events, p') ∧
      Printer.render ts = Sample.printed ∧ (tokenize Sample.printed).error = none ∧
      (Token.solid (tokenize Sample.printed).tokens).map Token.word =
        (Token.solid ts).map Token.word := by
  have hcheck : (({} : Preprocessor).runWithin 20 Sample.vanishing).any (fun r =>
      r.2.1 = .eof ∧ Printer.render r.1 = Sample.printed ∧ Token.joinsLine r.1 = false ∧
        Token.formsCharacter r.1 = false ∧
        ∀ t ∈ r.1, t.kind = .string → t.text = ascii "\"s\"") = true := by
    decide +kernel
  have hscan : Source.content (Lexer.ofText (ascii "\"s\"")) =
      ([{ kind := .string, text := ascii "\"s\"", pos := .start, length := 3 }], .eof) :=
    Source.content_of_runWithin (n := 3) (by decide +kernel)
  obtain ⟨⟨ts, e, T⟩, hr, hok⟩ := (Option.any_eq_true _ _).1 hcheck
  obtain ⟨rfl, hrender, hjoin, hchar, hstring⟩ := of_decide_eq_true hok
  obtain ⟨events, hrun⟩ := run_of_runWithin hr []
  have hreread (t : Token) (ht : t ∈ ts) (hk : t.kind = .string) : t.rereads = true := by
    rw [Token.rereads, Token.word, hstring t ht hk, hk, tokenize_eq, hscan]
    decide
  have hempty : Table.All Token.Regular {} := by
    intro m hm
    cases hm
  obtain ⟨-, herror, hwords, -⟩ := tokenize_print hempty hrun hreread hjoin hchar
  rw [hrender] at herror hwords
  exact ⟨ts, events, _, hrun, hrender, herror, hwords⟩

/-- The backslash joins the two lines of the text that is printed, and it is lost. -/
theorem not_tokenize_print_joining :
    ∃ ts events, ∃ p' : Preprocessor,
      ({} : Preprocessor).run [] Sample.joining = (⟨ts, none⟩, events, p') ∧
      (∃ r, ({} : Preprocessor).advance TokenStream.print
        (({} : Preprocessor).start [] Sample.joining) = ((Printer.render ts, none), r, p')) ∧
      (Token.solid (tokenize (Printer.render ts)).tokens).map Token.word ≠
        (Token.solid ts).map Token.word := by
  have hrun : ({} : Preprocessor).runWithin 9 Sample.joining =
      some ([Sample.newline ⟨9, 1, 10⟩,
        { kind := .punctuator, text := [Byte.backslash], pos := ⟨10, 2, 1⟩, length := 1 },
        Sample.newline ⟨12, 2, 3⟩], .eof,
        ⟨[{ name := ascii "E", pos := ⟨8, 1, 9⟩ }]⟩) := by
    decide +kernel
  have hscan : Source.content (Lexer.ofText (ascii "\n\\\n")) =
      ([{ kind := .whitespace, text := ascii "\n", pos := .start, length := 3, newline := true }],
        .eof) :=
    Source.content_of_runWithin (n := 3) (by decide +kernel)
  obtain ⟨events, hrun⟩ := run_of_runWithin hrun []
  refine ⟨_, events, _, hrun, advance_print hrun, ?_⟩
  rw [show Printer.render _ = ascii "\n\\\n" by decide +kernel, tokenize_eq, hscan]
  decide

end Preprocessor
end CPreprocessor

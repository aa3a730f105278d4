import CPreprocessor.Proofs.Printer.Rendering

/-!
Printing the tokens of a text without its white space and scanning what is printed gives the
same words again.
-/

namespace CPreprocessor
namespace Printer

theorem joinsLine_of_spells {ts : List Token} (hts : ∀ t ∈ ts, Spells t.kind t.text) :
    Token.joinsLine ts = false := by
  fun_induction Token.joinsLine ts with
  | case1 t u ts ih =>
      obtain ⟨-, hts⟩ := List.forall_mem_cons.1 hts
      obtain ⟨b, r, hb⟩ := List.exists_cons_of_ne_nil (List.forall_mem_cons.1 hts).1.ne_nil
      have hbreak : Byte.isLineBreak b = false :=
        (hb ▸ (List.forall_mem_cons.1 hts).1).head_noBreak
      rw [ih hts, hb]
      simp [hbreak]
  | case2 => rfl

theorem formsCharacter_of_spells {ts : List Token} (hts : ∀ t ∈ ts, Spells t.kind t.text) :
    Token.formsCharacter ts = false := by
  induction ts with
  | nil => rfl
  | cons t ts ih =>
      obtain ⟨ht, hts⟩ := List.forall_mem_cons.1 hts
      rw [Token.formsCharacter, ih hts]
      simp [ht.not_invalid]

theorem readsAs_render {ts : List Token} (hts : ∀ t ∈ ts, Spells t.kind t.text) :
    ReadsAs (render ts) ts := by
  have hprints : Prints (render ts) ts := prints_render (fun t ht => .spelled (hts t ht))
    (joinsLine_of_spells hts) (formsCharacter_of_spells hts)
  have hsolid : Token.solid ts = ts := by
    refine List.filter_eq_self.2 fun t ht => ?_
    simp [Token.isSpace, (hts t ht).not_whitespace]
  have hr := hprints.toReadsAs
  rwa [hsolid] at hr

theorem spells_of_mem_solid {src : Text}
    (hi : ∀ t ∈ (tokenize src).tokens, t.kind ≠ .invalid) :
    ∀ t ∈ Token.solid (tokenize src).tokens, Spells t.kind t.text := by
  intro t ht
  obtain ⟨ht, hs⟩ := List.mem_filter.1 ht
  exact spells_of_mem_tokenize ht (by simpa using hs) (hi t ht)

/-- Printing the tokens of a text and scanning what is printed gives the same words again.
The text may hold any bytes as long as none of them is stray; UTF-8 text holds no such bytes. -/
theorem tokenize_render {src : Text}
    (hv : (∀ t ∈ (tokenize src).tokens, t.kind ≠ .invalid) ∨ Utf8.valid src = true) :
    (tokenize (render (Token.solid (tokenize src).tokens))).error = none ∧
      (Token.solid (tokenize (render (Token.solid (tokenize src).tokens))).tokens).map Token.word =
        (Token.solid (tokenize src).tokens).map Token.word := by
  have hi : ∀ t ∈ (tokenize src).tokens, t.kind ≠ .invalid := hv.elim id not_invalid_of_valid
  have hr := readsAs_render (spells_of_mem_solid hi)
  generalize Token.solid (tokenize src).tokens = ts at hr ⊢
  obtain ⟨out, hc, hout⟩ := hr.content .start (Pos.start.atEnd (render ts))
  have hc : Source.content (Lexer.ofText (render ts)) = (out, .eof) := hc
  rw [tokenize_eq, hc]
  exact ⟨rfl, hout⟩

/-- Digraphs, an encoding letter, a number before a sign and two slashes. -/
theorem tokenize_render_spaced :
    Utf8.valid (ascii "%: % : u8 \"\" 1e + / / . . .5") = true ∧
      (Token.solid (tokenize (render (Token.solid
        (tokenize (ascii "%: % : u8 \"\" 1e + / / . . .5")).tokens))).tokens).map Token.word =
        (Token.solid (tokenize (ascii "%: % : u8 \"\" 1e + / / . . .5")).tokens).map
          Token.word := by
  have hv : Utf8.valid (ascii "%: % : u8 \"\" 1e + / / . . .5") = true := by cbv
  exact ⟨hv, (tokenize_render (.inr hv)).2⟩

end Printer
end CPreprocessor

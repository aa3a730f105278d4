import CPreprocessor.Proofs.Directive.Seam
import CPreprocessor.Proofs.Preprocessor.Run

/-!
Preprocessing a text that is cut at a line end. The two parts, one after the other with the
macros of the first kept, give what the whole text gives. Nothing else is carried over the line
end, unless the first part ends in a name: its expansion may reach into the second.
-/

namespace CPreprocessor

open Source (Runs)
open Lexer (space Space)

namespace Printer

theorem piece_of_isSpace {prev next : Token} (h : prev.isSpace = true ∨ next.isSpace = true) :
    piece prev next = next.text := by
  refine if_neg ?_
  unfold wouldFuse
  split
  · exact Bool.false_ne_true
  · rw [if_pos (by rcases h with h | h <;> simp [h])]
    exact Bool.false_ne_true

theorem flatten_piecesAfter_space {w : Token} (hw : w.isSpace = true) (vs : List Token) :
    (piecesAfter w vs).flatten = render vs := by
  cases vs with
  | nil => rfl
  | cons v vs => rw [piecesAfter, piece_of_isSpace (.inl hw), render, pieces]

/-- White space keeps what is printed around it apart. -/
theorem render_append_space {w : Token} (hw : w.isSpace = true) (us vs : List Token) :
    render (us ++ w :: vs) = render us ++ w.text ++ render vs := by
  have hafter (prev : Token) (us : List Token) : (piecesAfter prev (us ++ w :: vs)).flatten =
      (piecesAfter prev us).flatten ++ w.text ++ render vs := by
    induction us generalizing prev with
    | nil =>
        simp only [List.nil_append, piecesAfter, piece_of_isSpace (.inr hw), List.flatten_cons,
          List.flatten_nil, flatten_piecesAfter_space hw]
    | cons u us ih =>
        simp only [List.cons_append, piecesAfter, List.flatten_cons, ih, List.append_assoc]
  cases us with
  | nil =>
      rw [List.nil_append, render, pieces, List.flatten_cons, flatten_piecesAfter_space hw]
      rfl
  | cons u us =>
      simp only [List.cons_append, render, pieces, List.flatten_cons, hafter, List.append_assoc]

/-- What is printed does not depend on the places. -/
theorem render_alike {ts us : List Token} (h : Token.Alike ts us) : render ts = render us := by
  have hafter (prev : Token) (ts : List Token) :
      piecesAfter prev.unplaced (ts.map Token.unplaced) = piecesAfter prev ts := by
    induction ts generalizing prev with
    | nil => rfl
    | cons t ts ih =>
        rw [List.map_cons, piecesAfter, piecesAfter, ih]
        rfl
  have hrender (ts : List Token) : render (ts.map Token.unplaced) = render ts := by
    cases ts with
    | nil => rfl
    | cons t ts =>
        rw [List.map_cons, render, render, pieces, pieces, hafter]
        rfl
  rw [← hrender, h, hrender]

end Printer

section LeadingSpace

variable {x : ActiveText Lexer} {ts : List Token} {y : ExpandedText (ActiveText Lexer)}

theorem exists_space_of_runs (hp : x.pending = [])
    (hd : Runs (ExpandedText.ofSource x) ts .eof y) : ∃ s, space x.input.rest = some s := by
  cases hs : space x.input.rest with
  | some s => exact ⟨s, rfl⟩
  | none =>
      obtain ⟨e, he⟩ := Lexer.pull_of_space_eq_none hs
      obtain ⟨-, hend, -⟩ :=
        hd.of_stop (ExpandedText.pull_ofSource_stop (ActiveText.pull_of_fault hp he))
      cases hend

/-- White space at the beginning of a text is printed, and the text goes on as it would begin
behind it. -/
theorem runs_behind_space (hp : x.pending = []) (ha : x.state.active = true)
    (hl : x.lineStart = true) {s : Space} (hs : space x.input.rest = some s)
    (hd : Runs (ExpandedText.ofSource x) ts .eof y) :
    ∃ vs, Runs (ExpandedText.ofSource { x with input := { x.input with rest := s.cut.rest } })
      vs .eof y ∧ Printer.render ts = s.text ++ Printer.render vs := by
  by_cases ht : s.text = []
  · obtain rfl := Lexer.eq_none_of_space hs ht
    exact ⟨ts, hd, rfl⟩
  · obtain ⟨t, hpull, hsp, htext⟩ := Lexer.pull_of_space hs ht
    have hhash : ¬(x.lineStart && t.isHash) = true := by
      simp [Token.isHash, Token.not_isPunct_of_isSpace hsp]
    have hx := ActiveText.pull_of_text hp hpull hhash
    have hstart : ActiveText.startsLine x.lineStart t = x.lineStart := by
      rw [ActiveText.startsLine, hl, if_pos hsp, ite_self]
    rw [if_pos ha, hstart] at hx
    obtain ⟨vs, rfl, hvs⟩ :=
      hd.of_token (ExpandedText.pull_ofSource hx (Token.kind_ne_identifier_of_isSpace hsp))
    refine ⟨vs, hvs, ?_⟩
    rw [← htext]
    exact Printer.render_append_space hsp [] vs

end LeadingSpace

namespace Preprocessor

/-- The run of a text whose last line is ended, in front of another text: it is the same up to
the line end, which takes up the white space that follows, and then goes on as the other text
does behind that white space. -/
theorem runs_append {p : Preprocessor} {a b : Text} (ha : a.EndsLine) {s : Space}
    (hs : space (Lexer.ofText b).rest = some s) {ts : List Token}
    {y : ExpandedText (ActiveText Lexer)} (hd : Runs (p.expandedText a) ts .eof y)
    (hlast : ∀ t ∈ (Token.solid ts).getLast?, t.kind ≠ .identifier) :
    ∃ us us' w w' x, ts = us ++ [w] ∧ Token.Alike us us' ∧ w.isSpace = true ∧
      w'.isSpace = true ∧ w'.text = w.text ++ s.text ∧
      ActiveText.Tracks none (.ofSource { Lexer.ofText b with rest := s.cut.rest } y.table
        p.keepUnknown) x ∧
      ∀ vs e z, Runs (.ofSource x) vs e z →
        Runs (p.expandedText (a ++ b)) (us' ++ w' :: vs) e z := by
  obtain ⟨r, hlead⟩ := Glyph.leads_spliced_append ha .start .start b
  obtain ⟨u, hu, htext, hrest⟩ := Lexer.space_spliced hs r
  generalize (Glyph.spliced r b).2 = ks at hlead hu
  have hclear : Clear (some ks) := by
    rintro _ ⟨⟩
    exact ⟨u, hu⟩
  have hS := ActiveText.follows hclear p.keepUnknown
  have hstart : ActiveText.Tracks (some ks) (.ofSource (Lexer.ofText a) p.table p.keepUnknown)
      (.ofSource (Lexer.ofText (a ++ b)) p.table p.keepUnknown) :=
    ⟨⟨hlead, rfl⟩, rfl, rfl, rfl, rfl, .refl []⟩
  obtain ⟨us, us', w, x, x', x₁, x₂, hts, hus, ⟨hF, hkeep⟩, hpull, hstop,
    htable, hrun⟩ :=
    ExpandedText.follow_runs_until hS (by simp) (.ofSource ⟨.tracks hstart, rfl⟩) hd hlast
  have hkeep₁ : x₁.keepUnknown = x.keepUnknown := by
    have := ActiveText.keepUnknown_pull x
    rwa [show x.pull = _ from hpull] at this
  rcases ActiveText.follow_token hclear hF hpull with
    ⟨t', y', -, -, hF'⟩ | ⟨ks', v, w', x₁', htail, hv, hpull', hw, hb, hnil, hnil'⟩
  · rcases hS.stop ⟨hF', hkeep₁.trans hkeep⟩ hstop with ⟨hc, -⟩ | ⟨-, he⟩
    · exact absurd (by simp) hc
    · exact absurd rfl he
  · cases htail
    rw [hu] at hv
    cases hv
    have htracks := hb.tracks (l := { Lexer.ofText b with rest := s.cut.rest }) hnil hnil' hstop
      hrest rfl
    rw [hkeep₁.trans hkeep] at htracks
    have hsp := (Bool.and_eq_true_iff.1 hw.isLineEnd').1
    refine ⟨us, us', w, w', x₁', hts, hus, (Bool.and_eq_true_iff.1 hw.isLineEnd).1,
      hsp, ?_, ?_, ?_⟩
    · rw [htext, hw.text]
    · rw [htable]
      exact htracks
    · exact fun vs e z hz => hrun w' x₁' vs e z hpull' hsp hz

/-- The whole text gives what its two parts give, one after the other. -/
theorem run_append {p p₁ p₂ : Preprocessor} {name a b : Text} {ts us : List Token}
    {events events' : List Directive.Event} (ha : a.EndsLine)
    (h₁ : p.run name a = (⟨ts, none⟩, events, p₁))
    (hlast : ∀ t ∈ (Token.solid ts).getLast?, t.kind ≠ .identifier)
    (h₂ : p₁.run name b = (⟨us, none⟩, events', p₂)) :
    ∃ vs events'' p₃, p.run name (a ++ b) = (⟨vs, none⟩, events'', p₃) ∧
      Printer.render vs = Printer.render ts ++ Printer.render us ∧
      p₃.table.unplaced = p₂.table.unplaced ∧ p₃.keepUnknown = p₂.keepUnknown := by
  obtain ⟨y, hy, rfl⟩ := runs_of_run h₁
  obtain ⟨z, hz, rfl⟩ := runs_of_run h₂
  obtain ⟨s, hs⟩ := exists_space_of_runs rfl hz
  obtain ⟨us₁, hus₁, hrender⟩ := runs_behind_space rfl rfl rfl hs hz
  obtain ⟨ts₁, ts₁', w, w', x, rfl, hts₁, hw, hw', htext, htracks, hrun⟩ :=
    runs_append ha hs hy hlast
  have hS := ActiveText.follows Clear.none p.keepUnknown
  obtain ⟨us₁', e, z', hz', hus₁', he, hF⟩ :=
    ExpandedText.follow_runs hS (by simp) (.ofSource ⟨.tracks htracks, rfl⟩) hus₁
  cases he.of_eof
  refine ⟨_, _, _, run_of_runs (hrun us₁' .eof z' hz') name, ?_, ?_, rfl⟩
  · rw [Printer.render_append_space hw', ← Printer.render_alike hts₁,
      ← Printer.render_alike hus₁', htext, hrender, Printer.render_append_space hw]
    simp [Printer.render, Printer.pieces]
  · exact (hS.table hF.input.source).symm

namespace Sample

/-- A macro and a use of it. -/
def first : Text :=
  ascii "#define N 2\nN;\n"

/-- A use of the macro behind a comment. -/
def second : Text :=
  ascii "/**/ N\n"

def two : Token :=
  { kind := .number, text := ascii "2", pos := ⟨10, 1, 11⟩, length := 1 }

def defined : Preprocessor :=
  { table := ⟨[{ name := ascii "N", body := [two], pos := ⟨8, 1, 9⟩ }]⟩ }

end Sample

/-- The definition in the first part serves the second one. -/
theorem run_append_sample :
    ∃ vs events, ∃ p₃ : Preprocessor,
      ({} : Preprocessor).run [] (Sample.first ++ Sample.second) =
        (⟨vs, none⟩, events, p₃) ∧
      Printer.render vs = ascii "\n2;\n" ++ ascii "  2\n" ∧
      p₃.table.unplaced = Sample.defined.table.unplaced ∧ p₃.keepUnknown = false := by
  have hline : Sample.first.EndsLine :=
    ⟨ascii "#define N 2\nN;", Byte.lineFeed, by decide, by decide, by decide,
      fun _ => by decide⟩
  have h₁ : ({} : Preprocessor).runWithin 9 Sample.first =
      some ([Sample.newline ⟨11, 1, 12⟩, Sample.two,
        { kind := .punctuator, text := ascii ";", pos := ⟨13, 2, 2⟩, length := 1 },
        Sample.newline ⟨14, 2, 3⟩], .eof, Sample.defined.table) := by
    decide +kernel
  have h₂ : Sample.defined.runWithin 9 Sample.second =
      some ([{ kind := .whitespace, text := ascii "  ", pos := ⟨0, 1, 1⟩, length := 5 },
        Sample.two, Sample.newline ⟨6, 1, 7⟩], .eof, Sample.defined.table) := by
    decide +kernel
  obtain ⟨events, hr₁⟩ := run_of_runWithin h₁ []
  obtain ⟨events', hr₂⟩ := run_of_runWithin h₂ []
  obtain ⟨vs, events'', p₃, hr, hrender, htable, hkeep⟩ :=
    run_append hline hr₁ (by decide) hr₂
  exact ⟨vs, events'', p₃, hr, hrender.trans (by decide +kernel), htable, hkeep⟩

end Preprocessor
end CPreprocessor

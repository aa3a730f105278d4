import CPreprocessor.Proofs.Directive.Skipping
import CPreprocessor.Proofs.Preprocessor.Run
import CPreprocessor.Proofs.Printer.RoundTrip

/-!
Skipped text does not interfere. What stands between `#if 0` and `#endif` has no effect on the
words, the errors and the macros of the text behind it, if it can be scanned tolerantly, ends a
line and has no directive in it. The line break at its end may be part of a line join in a line
comment; then the comment goes on through the closing directive. A hash behind such a text is no
token of its own.
-/

namespace CPreprocessor

open Directive
open Source (Runs)
open Lexer (space Space)

/-- A source that passes over something first follows what it would follow without it. -/
theorem Source.Follows.of_pull_eq {σ τ : Type} [Tabled σ] [Tabled τ] {cross : Prop}
    {S : σ → τ → Prop} (hS : Source.Follows cross S) :
    Source.Follows cross fun s s' => ∃ s₀, Source.pull s = Source.pull s₀ ∧
      Tabled.table s = Tabled.table s₀ ∧ S s₀ s' where
  token := by
    rintro s s' s₁ t ⟨s₀, hpull, -, h⟩ hp
    rcases hS.token h (hpull.symm.trans hp) with ⟨u, s₁', hp', hu, h₁⟩ | hcross
    · exact .inl ⟨u, s₁', hp', hu, s₁, rfl, rfl, h₁⟩
    · exact .inr hcross
  stop := by
    rintro s s' s₁ e ⟨s₀, hpull, -, h⟩ hp
    rcases hS.stop h (hpull.symm.trans hp) with ⟨hc, e', s₁', hp', he, h₁⟩ | hcross
    · exact .inl ⟨hc, e', s₁', hp', he, s₁, rfl, rfl, h₁⟩
    · exact .inr hcross
  table := by
    rintro s s' ⟨s₀, -, htable, h⟩
    rw [htable]
    exact hS.table h

/-- Token lists that differ in places only have the same words. -/
theorem Token.Alike.words {ts us : List Token} (h : Token.Alike ts us) :
    (Token.solid ts).map Token.word = (Token.solid us).map Token.word := by
  have hwords (ts : List Token) :
      (Token.solid ts).map Token.word = (Token.solid (ts.map Token.unplaced)).map Token.word := by
    rw [Token.solid, Token.solid, List.filter_map, List.map_map]
    rfl
  rw [hwords, h, ← hwords]

namespace ActiveText

open Skipping (opening inside)

/-- The text behind a skipped one begins at a directive. -/
def closing (b : Text) : Text :=
  ascii "#endif\n" ++ b

theorem detached_closing (b : Text) : Glyph.Detached (closing b) := by
  refine ⟨rfl, fun c hc => ?_⟩
  cases hc
  rfl

theorem space_closing (b : Text) (r : Pos) :
    space (Glyph.spliced r (closing b)).2 = some (.none (Glyph.spliced r (closing b)).2) := by
  have hash : closing b = '#'.toUInt8 :: (ascii "endif\n" ++ b) := rfl
  have hline : Byte.isLineBreak '#'.toUInt8 = false := by decide
  have hblank : Byte.isBlank '#'.toUInt8 = false := by decide
  have hcomment (g : Glyph) (hg : g.byte = '#'.toUInt8) (gs : List Glyph) :
      Lexer.comment (g :: gs) = .absent := by
    cases gs with
    | nil => rfl
    | cons h gs =>
        simp only [Lexer.comment, hg]
        rfl
  rw [hash, Glyph.spliced_cons r (hash ▸ (detached_closing b).1)]
  exact Lexer.space_of_absent (Bool.eq_false_iff.1 hline) (Bool.eq_false_iff.1 hblank)
    (hcomment _ rfl _)

/-- White space at the beginning of a text is no part of its lines. -/
theorem content_behind_space {l : Lexer} {ts : List Token} (h : Source.content l = (ts, .eof))
    (hitems : ∀ i, .line i ∉ Item.ofTokens true ts) :
    ∃ s us, space l.rest = some s ∧
      Source.content { l with rest := s.cut.rest } = (us, .eof) ∧
      ∀ i, .line i ∉ Item.ofTokens true us := by
  cases hs : space l.rest with
  | none =>
      obtain ⟨e, he⟩ := Lexer.pull_of_space_eq_none hs
      rw [Source.content_of_stop he] at h
      cases h
  | some s =>
      by_cases ht : s.text = []
      · refine ⟨s, ts, rfl, ?_, hitems⟩
        rw [Lexer.eq_none_of_space hs ht]
        exact h
      · obtain ⟨t, hpull, hsp, -⟩ := Lexer.pull_of_space hs ht
        rw [Source.content_of_token hpull] at h
        obtain ⟨rfl, hend⟩ := Prod.mk.inj h
        obtain ⟨-, hitems⟩ := Item.line_notMem_cons.1 hitems
        rw [startsLine, if_pos hsp, ite_self] at hitems
        exact ⟨s, _, rfl, Prod.ext rfl hend, hitems⟩

theorem glyphs_append_hash (V : Text) :
    ∃ k, k.byte = '#'.toUInt8 ∧
      (Lexer.ofText (V ++ ascii "#")).rest = (Lexer.ofText V).rest ++ [k] := by
  have hdetached : Glyph.Detached (ascii "#") := by
    refine ⟨rfl, fun c hc => ?_⟩
    cases hc
    rfl
  refine ⟨⟨'#'.toUInt8, Pos.start.atEnd V, []⟩, rfl, ?_⟩
  rw [Lexer.ofText, Glyph.spliced_append .start V hdetached]
  rfl

/-- The white space behind the last line break ends in front of a hash, so whatever follows it
is behind it. -/
theorem behindSpace_of_hash {V : Text} {us vs : List Glyph}
    (hparts : Lexer.Parts (Lexer.ofText V).rest us vs) {stop : Pos} {ws : List Token}
    (hws : Source.content (⟨us, stop, true⟩ : Lexer) = (ws, .eof))
    (hhash : ∃ t ∈ (Lexer.scan true (V ++ ascii "#")).1.getLast?, t.isHash = true)
    (ks : List Glyph) : Lexer.behindSpace (vs ++ ks) = Lexer.behindSpace ks := by
  rcases Lexer.behindSpace_append hparts.behindSpace with h | h
  · exact h ks
  · -- A line comment takes up the hash, and white space is the last token.
    obtain ⟨k, hk, hglyphs⟩ := glyphs_append_hash V
    have hspan : (!Byte.isLineBreak k.byte) = true := by
      rw [hk]
      decide
    have hline : Lexer.behindSpace (vs ++ [k]) = some [] := by
      rw [h, Cut.spanning, if_pos hspan, Lexer.behindSpace, Cut.spanning, Cut.rest_prepend, space]
      rfl
    obtain ⟨u, hu, hr⟩ := Option.map_eq_some_iff.1 hline
    have hfollows : Lexer.Follows (some (vs ++ [k])) ⟨us, stop, true⟩
        { Lexer.ofText (V ++ ascii "#") with tolerant := true } :=
      ⟨hglyphs ▸ hparts.leads [k], rfl⟩
    obtain ⟨w, hw, hsp⟩ := Lexer.getLast_of_follows hu hr hfollows hws
    obtain ⟨t, ht, hhash⟩ := hhash
    cases ht.symm.trans hw
    simp [Token.isHash, Token.not_isPunct_of_isSpace hsp] at hhash

/-- A text in a group that is skipped is passed over up to the directive behind it. -/
theorem pull_inside {V : Text} {ts : List Token} {w : Token}
    (hscan : Lexer.scan true V = (ts, .eof)) (hlast : ts.getLast? = some w)
    (hw : w.isLineEnd = true)
    (hhash : ∃ t ∈ (Lexer.scan true (V ++ ascii "#")).1.getLast?, t.isHash = true)
    (hitems : ∀ i, .line i ∉ Item.ofTokens true ts) (b : Text) (T : Table) (keep : Bool) :
    ∃ s, space (Lexer.ofText (V ++ closing b)).rest = some s ∧ ∃ l : Lexer,
      Glyph.Leads none l.rest (Lexer.ofText (closing b)).rest ∧
      pull (inside T keep { Lexer.ofText (V ++ closing b) with rest := s.cut.rest }) =
        pull (inside T keep l) := by
  obtain ⟨us, vs, ws, hparts, hws, hlines⟩ := Lexer.exists_parts_of_content hscan hlast hw
  have hlead : Glyph.Leads (some (vs ++ (Glyph.spliced (Pos.start.atEnd V) (closing b)).2)) us
      (Lexer.ofText (V ++ closing b)).rest := by
    simp only [Lexer.ofText, Glyph.spliced_append .start V (detached_closing b)]
    exact hparts.leads _
  have hplace := (Glyph.leads_spliced (Pos.start.atEnd V) .start (closing b)).2
  have hclosing := space_closing b (Pos.start.atEnd V)
  generalize (Glyph.spliced (Pos.start.atEnd V) (closing b)).2 = ks at hlead hplace hclosing
  obtain ⟨v, hv, hvr⟩ : ∃ v, space (vs ++ ks) = some v ∧ v.cut.rest = ks := by
    refine Option.map_eq_some_iff.1 ((behindSpace_of_hash hparts hws hhash ks).trans ?_)
    rw [Lexer.behindSpace, hclosing]
    rfl
  obtain ⟨s, us', hs, hus, hitems'⟩ := content_behind_space hws (hlines true hitems)
  have hext := Lexer.space_leads hlead hs
  generalize space (Lexer.ofText (V ++ closing b)).rest = o at hext
  cases hext with
  | @same _ _ u _ _ hm =>
      refine ⟨u, rfl, ?_⟩
      obtain ⟨l, hr, hm, hpull⟩ := pull_of_skipped hv
        (l := { rest := s.cut.rest, stop := (Lexer.ofText V).stop, tolerant := true })
        (x := inside T keep { Lexer.ofText (V ++ closing b) with rest := u.cut.rest })
        ⟨hm.rest, rfl⟩ rfl rfl hus hitems'
      refine ⟨l, (hr.trans hvr) ▸ hplace, hpull.trans ?_⟩
      obtain ⟨rest, stop, tolerant⟩ := l
      cases hm
      rfl
  | across _ _ _ hu =>
      obtain ⟨u, rfl, -, -, hr⟩ := hu _ hv
      refine ⟨u, rfl, { Lexer.ofText (V ++ closing b) with rest := u.cut.rest }, ?_, rfl⟩
      rw [hr, hvr]
      exact hplace

end ActiveText

namespace Preprocessor

open ActiveText.Skipping (opening inside)

/-- Two runs give the same words, fail in the same way if they fail, and leave the same macros
up to places. -/
structure Agree (r r' : Output × List Directive.Event × Preprocessor) : Prop where
  words : (Token.solid r.1.tokens).map Token.word = (Token.solid r'.1.tokens).map Token.word
  error : r.1.error.map Error.kind = r'.1.error.map Error.kind
  table : r.2.2.table.unplaced = r'.2.2.table.unplaced

/-- The run of a text behind `#if 0`: it goes on in the group behind the white space there. -/
theorem run_opening {p : Preprocessor} {t : Text} {s : Space}
    (hs : space (Lexer.ofText t).rest = some s) {l : Lexer} (hl : l.rest = s.cut.rest)
    {ts : List Token} {e : End} {y : ExpandedText (ActiveText Lexer)}
    (h : Runs (.ofSource (inside p.table p.keepUnknown l)) ts e y) (name : Text) :
    ∃ us f events T, p.run name (opening ++ t) = (⟨us, f⟩, events, { p with table := T }) ∧
      (Token.solid us).map Token.word = (Token.solid ts).map Token.word ∧
      f.map Error.kind = e.error?.map Error.kind ∧ T.unplaced = y.table.unplaced := by
  obtain ⟨w, x, hpull, hw, htracks⟩ := ActiveText.pull_opening p.table p.keepUnknown hs hl
  have hS := ActiveText.follows Clear.none p.keepUnknown
  obtain ⟨ts', e', y', hruns, halike, he, hF⟩ :=
    ExpandedText.follow_runs hS (by simp) (.ofSource ⟨.tracks htracks, rfl⟩) h
  have hrun : Runs (p.expandedText (opening ++ t)) (w :: ts') e' y' :=
    .token (ExpandedText.pull_ofSource hpull (Token.kind_ne_identifier_of_isSpace hw)) hruns
  refine ⟨_, _, _, _, run_of_runs hrun name, ?_, ?_, (hS.table hF.input.source).symm⟩
  · rw [Token.solid, List.filter_cons_of_neg (by simp [hw])]
    exact halike.words.symm
  · cases e with
    | eof =>
        cases he.of_eof
        rfl
    | fault e =>
        obtain ⟨f, rfl, hk⟩ := he.of_fault
        exact congrArg some ((f.kind_inFile name).trans hk.symm)

/-- A skipped text has no effect on what is behind it. Its last token ends a line, and a hash
behind it is a token of its own. -/
theorem agree_run_skipped {p : Preprocessor} {name X b : Text} {ts : List Token} {w : Token}
    (hscan : Lexer.scan true (X ++ ascii "\n") = (ts, .eof)) (hlast : ts.getLast? = some w)
    (hw : w.isLineEnd = true)
    (hhash : ∃ t ∈ (Lexer.scan true (X ++ ascii "\n#")).1.getLast?, t.isHash = true)
    (hlines : ∀ l, Item.line l ∉ Item.ofTokens true ts) :
    Agree (p.run name (ascii "#if 0\n" ++ X ++ ascii "\n#endif\n" ++ b))
      (p.run name (ascii "#if 0\n#endif\n" ++ b)) := by
  have hsrc : ascii "#if 0\n" ++ X ++ ascii "\n#endif\n" ++ b =
      opening ++ ((X ++ ascii "\n") ++ ActiveText.closing b) := by
    have hclose : ascii "\n#endif\n" = ascii "\n" ++ ascii "#endif\n" := by decide
    simp only [hclose, opening, ActiveText.closing, List.append_assoc]
  have hsrc' : ascii "#if 0\n#endif\n" ++ b = opening ++ ActiveText.closing b := by
    have hempty : ascii "#if 0\n#endif\n" = opening ++ ascii "#endif\n" := by decide
    rw [hempty, List.append_assoc, ActiveText.closing]
  have hmark : ascii "\n#" = ascii "\n" ++ ascii "#" := by decide
  rw [hmark, ← List.append_assoc] at hhash
  obtain ⟨s, hs, l, hlead, hpull⟩ :=
    ActiveText.pull_inside hscan hlast hw hhash hlines b p.table p.keepUnknown
  -- Behind the skipped text both runs stand at the closing directive, in the same group.
  have htracks : ActiveText.Tracks none (inside p.table p.keepUnknown l)
      (inside p.table p.keepUnknown (Lexer.ofText (ActiveText.closing b))) :=
    ⟨⟨hlead, rfl⟩, rfl, rfl, rfl, rfl, .refl []⟩
  have hS := (ActiveText.follows Clear.none p.keepUnknown).of_pull_eq
  obtain ⟨us, e, y, hruns⟩ :=
    Runs.exists_runs (ExpandedText.ofSource (inside p.table p.keepUnknown
      { Lexer.ofText ((X ++ ascii "\n") ++ ActiveText.closing b) with
        rest := s.cut.rest }))
  obtain ⟨us', e', y', hruns', halike, he, hF⟩ :=
    ExpandedText.follow_runs hS (by simp) (.ofSource ⟨_, hpull, rfl, .tracks htracks, rfl⟩)
      hruns
  obtain ⟨vs, f, events, T, hrun, hwords, hf, hT⟩ := run_opening hs rfl hruns name
  obtain ⟨vs', f', events', T', hrun', hwords', hf', hT'⟩ :=
    run_opening (t := ActiveText.closing b) (ActiveText.space_closing b .start) rfl
      hruns' name
  rw [hsrc, hsrc', hrun, hrun']
  exact ⟨hwords.trans (halike.words.trans hwords'.symm), hf.trans (Eq.trans he hf'.symm),
    hT.trans ((hS.table hF.input.source).trans hT'.symm)⟩

namespace Sample

/-- Literals that are not closed, and a last line that is joined to what follows. -/
def brokenText : Text :=
  ascii "it's \"N\n '\n \\"

/-- Their tokens with a line end behind them. -/
def brokenTokens : List Token :=
  [{ kind := .identifier, text := ascii "it", pos := ⟨0, 1, 1⟩, length := 2 },
    { kind := .invalid, text := ascii "'s \"N", pos := ⟨2, 1, 3⟩, length := 5 },
    { kind := .whitespace, text := ascii "\n ", pos := ⟨7, 1, 8⟩, length := 2,
      newline := true },
    { kind := .invalid, text := ascii "'", pos := ⟨9, 2, 2⟩, length := 1 },
    { kind := .whitespace, text := ascii "\n ", pos := ⟨10, 2, 3⟩, length := 4,
      newline := true }]

/-- A line comment that goes on through the next line. -/
def joinedComment : Text :=
  ascii "\n//\\"

/-- What follows an opening directive if the comment is the text to be skipped. -/
def unclosed : Text :=
  joinedComment ++ ascii "\n#endif\nx\n"

/-- The definition of a macro and a use of it. -/
def behind : Text :=
  ascii "#define N 2\nN\n"

end Sample

/-- Literals that are not closed are passed over. -/
theorem agree_run_skipped_sample :
    Agree (({} : Preprocessor).run [] (ascii "#if 0\n" ++ Sample.brokenText ++ ascii "\n#endif\n" ++
        Sample.behind))
      (({} : Preprocessor).run [] (ascii "#if 0\n#endif\n" ++ Sample.behind)) := by
  have hscan : Lexer.scan true (Sample.brokenText ++ ascii "\n") = (Sample.brokenTokens, .eof) :=
    Source.content_of_runWithin (n := 9) (by decide +kernel)
  have hmark : Lexer.scan true (Sample.brokenText ++ ascii "\n#") =
      (Sample.brokenTokens ++
        [{ kind := .punctuator, text := ascii "#", pos := ⟨14, 4, 1⟩, length := 1 }], .eof) :=
    Source.content_of_runWithin (n := 9) (by decide +kernel)
  have hitems :
      (Item.ofTokens true Sample.brokenTokens).all (fun i => i matches .text _) = true := by
    decide +kernel
  refine agree_run_skipped hscan rfl rfl ?_ fun l hl => ?_
  · rw [hmark]
    exact ⟨_, rfl, rfl⟩
  · cases List.all_eq_true.1 hitems _ hl

/-- A text that ends in a line comment may be joined to the closing directive. It scans, ends a
line and has no directive in it, but the group is not closed behind it. -/
theorem not_agree_run_joinedComment :
    ∃ ts w, Lexer.scan true (Sample.joinedComment ++ ascii "\n") = (ts, .eof) ∧
      ts.getLast? = some w ∧ w.isLineEnd = true ∧
      (∀ l, Item.line l ∉ Item.ofTokens true ts) ∧
      ¬Agree (({} : Preprocessor).run [] (ascii "#if 0\n" ++ Sample.joinedComment ++
          ascii "\n#endif\n" ++ ascii "x\n"))
        (({} : Preprocessor).run [] (ascii "#if 0\n#endif\n" ++ ascii "x\n")) := by
  have hscan : Lexer.scan true (Sample.joinedComment ++ ascii "\n") =
      ([{ kind := .whitespace, text := ascii "\n ", pos := .start, length := 5, newline := true }],
        .eof) :=
    Source.content_of_runWithin (n := 3) (by decide +kernel)
  have hitems : (Item.ofTokens true (Lexer.scan true (Sample.joinedComment ++ ascii "\n")).1).all
      (fun i => i matches .text _) = true := by
    rw [hscan]
    decide +kernel
  have hspace : space (Lexer.ofText Sample.unclosed).rest =
      some ((space (Lexer.ofText Sample.unclosed).rest).getD (.none [])) := by
    have hsome : (space (Lexer.ofText Sample.unclosed).rest).isSome = true := by
      decide +kernel
    obtain ⟨s, hs⟩ := Option.isSome_iff_exists.1 hsome
    rw [hs]
    rfl
  have hopen : (ExpandedText.ofSource (inside {} false
      { Lexer.ofText Sample.unclosed with
        rest := ((space (Lexer.ofText Sample.unclosed).rest).getD (.none [])).cut.rest }
      )).runWithin 2 =
      some ([], .fault { fault := .unterminatedGroup (ascii "if"), pos := ⟨1, 1, 2⟩ }, {}) := by
    decide +kernel
  have hclosed : (ExpandedText.ofSource (inside {} false
      (Lexer.ofText (ActiveText.closing (ascii "x\n"))))).runWithin 5 =
      some ([Sample.newline ⟨6, 1, 7⟩,
        { kind := .identifier, text := ascii "x", pos := ⟨7, 2, 1⟩, length := 1 },
        Sample.newline ⟨8, 2, 2⟩], .eof, {}) := by
    decide +kernel
  obtain ⟨y, hy, -⟩ := ExpandedText.runs_of_runWithin hopen
  obtain ⟨y', hy', -⟩ := ExpandedText.runs_of_runWithin hclosed
  obtain ⟨us, f, events, T, hrun, -, hf, -⟩ := run_opening (p := {}) hspace rfl hy []
  obtain ⟨us', f', events', T', hrun', -, hf', -⟩ :=
    run_opening (p := {}) (t := ActiveText.closing (ascii "x\n"))
      (ActiveText.space_closing _ .start)
      rfl hy' []
  refine ⟨_, _, hscan, rfl, rfl, fun l hl => ?_, fun hagree => ?_⟩
  · rw [hscan] at hitems
    cases List.all_eq_true.1 hitems _ hl
  · have herror := hagree.error
    have hsrc : ascii "#if 0\n" ++ Sample.joinedComment ++ ascii "\n#endif\n" ++ ascii "x\n" =
        opening ++ Sample.unclosed := by
      decide
    have hsrc' : ascii "#if 0\n#endif\n" ++ ascii "x\n" =
        opening ++ ActiveText.closing (ascii "x\n") := by
      decide
    rw [hsrc, hsrc', hrun, hrun', hf, hf'] at herror
    cases herror

end Preprocessor
end CPreprocessor

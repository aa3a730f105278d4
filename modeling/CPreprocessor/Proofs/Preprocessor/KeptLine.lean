import CPreprocessor.Proofs.Directive.Seam
import CPreprocessor.Proofs.Directive.Step
import CPreprocessor.Proofs.Macro.Approach
import CPreprocessor.Proofs.Preprocessor.Run

/-!
Directive lines of unknown name that are kept. The directives leave such a line as it is, but the
macros see it like any other text. If they leave it alone, the line is handed out unchanged
between what comes before it and what comes behind it. Only arguments that are open where the line
starts can take it in.
-/

namespace CPreprocessor

open Directive
open Source (Runs Reaches)

/-- The macros leave the tokens alone: on their own they are expanded to themselves, and they do
not end with a name that waits for arguments. -/
structure Table.Leaves (T : Table) (ts : List Token) : Prop where
  error : (expand T ts).error = none
  alike : Token.Alike (expand T ts).tokens ts
  settled : Expansion.Settled T ts

/-- Tokens without names of macros are left alone. -/
theorem Table.leaves_of_undefined {T : Table} {ts : List Token}
    (h : ∀ t ∈ ts, t.kind = .identifier →
      t.text ≠ Vocabulary.variadicName ∧ T.lookup t.text = none) : T.Leaves ts := by
  have hexpand : expand T ts = ⟨ts, none⟩ := by
    induction ts with
    | nil => exact Expansion.expandAt_of_stop (e := .eof) rfl
    | cons t ts ih =>
        have hstep : Expansion.step (fun _ => T) false 0 [] (t :: ts) = .emit t [] ts := by
          simp only [Expansion.step, TokenStream.next, TokenList.next]
          split
          · rfl
          · rename_i hk
            obtain ⟨hv, hm⟩ := h t List.mem_cons_self (Decidable.not_not.1 hk)
            simp [hv, hm]
        rw [expand, Expansion.expandAt_of_emit hstep, ← expand,
          ih fun u hu => h u (List.mem_cons_of_mem t hu)]
        rfl
  refine ⟨by rw [hexpand], by rw [hexpand]; exact .refl ts, fun t ht => ?_⟩
  have hmem : t ∈ ts := (List.mem_filter.1 (List.mem_of_getLast? ht)).1
  rw [isFunctionName]
  by_cases hk : t.kind = .identifier
  · simp [(h t hmem hk).2]
  · simp [hk]

/-- A line that is read ends with its line end, if it has one. -/
theorem Line.whole_of_read {σ : Type} [Feed σ] (s : σ) :
    ((read s).1.tokens.takeWhile fun t => !t.isLineEnd) ++
      ((read s).1.tokens.find? Token.isLineEnd).toList = (read s).1.tokens := by
  fun_induction read s with
  | case1 s e s₁ hs => rfl
  | case2 s t s₁ hs ht => simp [ht]
  | case3 s t s₁ hs ht line s₂ hr ih =>
      rw [hr] at ih
      simp [ht, ih]

namespace ActiveText

section Line

variable {σ : Type} [Feed σ] {x : ActiveText σ} {l : HashLine} {s : σ}

/-- The text has come to the line `l`, which is active and whose name is no directive; behind the
line its input is at `s`. -/
structure AtLine (x : ActiveText σ) (l : HashLine) (s : σ) : Prop where
  pending : x.pending = []
  start : x.lineStart = true
  active : x.state.active = true
  isHash : l.hash.isHash = true
  unknown : l.unknown = true
  read : ∃ s₁, Source.pull x.input = .token l.hash s₁ ∧
    Line.read s₁ = (⟨l.tokens, .eof⟩, s)

/-- A line of unknown name is kept as it is. -/
theorem AtLine.execute (h : x.AtLine l s) :
    ∃ name, Directive.execute true l.hash ⟨l.tokens, .eof⟩ x.state =
      (x.state.record name, .ok (l.hash :: l.tokens)) := by
  obtain ⟨s₁, -, hread⟩ := h.read
  have hwhole := Line.whole_of_read s₁
  have htake := HashLine.takeWhile_isGap_append l.tokens
  have hfind := Token.find?_dropWhile_isGap l.tokens
  have hunknown := h.unknown
  rw [hread] at hwhole
  rw [HashLine.unknown] at hunknown
  cases hd : l.tokens.dropWhile Token.isGap with
  | nil => simp [hd] at hunknown
  | cons name rest =>
      simp only [hd, Bool.and_eq_true, Bool.not_eq_true', Option.isNone_iff_eq_none] at hunknown
      obtain ⟨hend, hname⟩ := hunknown
      rw [hd, List.takeWhile_cons_of_pos (by simp [hend])] at htake
      rw [hd, List.find?_cons_of_neg (by simp [hend])] at hfind
      refine ⟨name, ?_⟩
      simp only [Directive.execute, hd, hend, hname, otherLine, Line.split_eof, h.active, hfind,
        Bool.false_eq_true, if_false, Bool.and_self, if_true]
      rw [List.cons_append, List.cons_append, htake, hwhole]

/-- Pending tokens are handed out one by one. -/
theorem reads_pending (x : ActiveText σ) (us : List Token) :
    Buffered.Reads x.state.table (.ofSource { x with pending := us }) us
        (.ofSource { x with pending := [] }) ∧
      Reaches { x with pending := us } us { x with pending := [] } := by
  induction us with
  | nil => exact ⟨.nil, .refl⟩
  | cons u us ih =>
      have hpull : Source.pull { x with pending := u :: us } = .token u { x with pending := us } :=
        pull_of_pending rfl
      exact ⟨.token (Buffered.next_ofSource hpull) rfl ih.1, .token hpull ih.2⟩

/-- The text hands out a line of unknown name, while the macros stay the same. -/
theorem AtLine.reads (h : x.AtLine l s) (hkeep : x.keepUnknown = true) :
    ∃ x', Buffered.Reads x.state.table (.ofSource x) (l.hash :: l.tokens) (.ofSource x') ∧
      Reaches x (l.hash :: l.tokens) x' := by
  obtain ⟨s₁, hpull, hread⟩ := h.read
  obtain ⟨name, hexec⟩ := h.execute
  rw [← hkeep] at hexec
  have hhash := (pull_of_line h.pending hpull (by simp [h.start, h.isHash]) hread hexec).trans
    (pull_of_pending rfl)
  obtain ⟨hreads, hreaches⟩ := reads_pending { x with
    input := Feed.tolerate (!(x.state.record name).active) s, state := x.state.record name,
    lineStart := true } l.tokens
  exact ⟨_, .token (Buffered.next_ofSource hhash) rfl hreads, .token hhash hreaches⟩

/-- The line of unknown name that a text has come to, and the input behind it. -/
def line? (x : ActiveText σ) : Option (HashLine × σ) :=
  match Source.pull x.input with
  | .stop _ _ => none
  | .token hash s₁ =>
    let (line, s) := Line.read s₁
    let l : HashLine := ⟨hash, line.tokens⟩
    if x.pending = [] ∧ x.lineStart ∧ x.state.active ∧ hash.isHash ∧ l.unknown ∧
      line.ending = .eof then some (l, s) else none

theorem atLine_of_line? (h : x.line? = some (l, s)) : x.AtLine l s := by
  unfold line? at h
  split at h
  · cases h
  · rename_i hash s₁ hpull
    cases hread : Line.read s₁ with
    | mk line s₂ =>
    obtain ⟨ts, ending⟩ := line
    simp only [hread] at h
    split at h
    · rename_i hcond
      obtain ⟨hpending, hstart, hactive, hhash, hunknown, hending⟩ := hcond
      cases hending
      cases h
      exact ⟨hpending, hstart, hactive, hhash, hunknown, s₁, hpull, hread⟩
    · cases h

theorem keepUnknown_of_reaches {x y : ActiveText σ} {us : List Token} (h : Reaches x us y) :
    y.keepUnknown = x.keepUnknown := by
  induction h with
  | refl => rfl
  | @token x x₁ y t us hp _ ih =>
      have hkeep := keepUnknown_pull x
      rw [show x.pull = _ from hp] at hkeep
      exact ih.trans hkeep

end Line
end ActiveText

namespace Preprocessor

variable {p : Preprocessor} {name src : Text}

/-- What becomes of a line with the tokens `ts` when a source is preprocessed; behind the line the
active text is at `x'`. -/
inductive LineFate (p : Preprocessor) (name src : Text) (T : Table) (ts : List Token)
    (x' : ActiveText Lexer) : Prop where
  /-- The line is handed out, between what was handed out before any of it was scanned and what
  the text behind it gives. -/
  | kept {us ls z} : Reaches (p.expandedText src) us z →
      z.input.InFront T ts (.ofSource x') → Token.Alike ls ts →
      (p.run name src).1 = ⟨us ++ ls ++ (Source.content (ExpandedText.ofSource x')).1,
        ((Source.content (ExpandedText.ofSource x')).2.inFile name).error?⟩ →
      LineFate p name src T ts x'
  /-- Arguments are open in front of the line, and its hash becomes part of one. -/
  | taken {us hash} {z z₁ : ExpandedText (ActiveText Lexer)} :
      Reaches (p.expandedText src) us z →
      z.input.InFront T ts (.ofSource x') → z.pull = z₁.pull → ts.head? = some hash →
      z₁.Takes hash → LineFate p name src T ts x'
  /-- An error comes before the line is scanned. -/
  | failed {us f} {z y : ExpandedText (ActiveText Lexer)} : Reaches (p.expandedText src) us z →
      z.input.InFront T ts (.ofSource x') → z.pull = .stop (.fault f) y →
      (p.run name src).1 = ⟨us, some (f.inFile name)⟩ → LineFate p name src T ts x'

/-- A line of unknown name is kept as it is, wherever it stands in active text, if the macros
leave it alone and no arguments are open in front of it. -/
theorem lineFate_of_unknown (hkeep : p.keepUnknown = true) (name src : Text) {pre : List Token}
    {x : ActiveText Lexer} {l : HashLine} {s : Lexer}
    (hx : Reaches (ActiveText.ofSource (Lexer.ofText src) p.table p.keepUnknown) pre x)
    (hline : x.AtLine l s) (hleaves : x.state.table.Leaves (l.hash :: l.tokens)) :
    ∃ x', Reaches x (l.hash :: l.tokens) x' ∧
      LineFate p name src x.state.table (l.hash :: l.tokens) x' := by
  obtain ⟨x', hreads, hreaches⟩ :=
    hline.reads ((ActiveText.keepUnknown_of_reaches hx).trans hkeep)
  refine ⟨x', hreaches, ?_⟩
  obtain ⟨out, e, y, hrun⟩ := Runs.exists_runs (p.expandedText src)
  obtain ⟨vs, f, y', hrest⟩ := Runs.exists_runs (ExpandedText.ofSource x')
  have hout : (p.run name src).1 = ⟨out, (e.inFile name).error?⟩ := by
    rw [run_of_runs hrun name]
  rcases ExpandedText.arrives_of_runs hline.isHash hrun (.of_reaches hx (.here hreads)) with
    ⟨us, ws, z, r, hz, hfront, rfl, hr, hws⟩ | ⟨us, z, z₁, hz, hfront, hpull, htake⟩ |
      ⟨z, f, hz, hfront, rfl, hfail⟩
  · obtain ⟨rfl, rfl, -⟩ :=
      hws.unique (ExpandedText.runs_of_reads hr hleaves.settled hleaves.error hrest)
    refine .kept hz hfront hleaves.alike ?_
    rw [hout, hrest.content_eq, List.append_assoc]
  · exact .taken hz hfront hpull rfl htake
  · exact .failed hz hfront hfail hout

namespace Sample

/-- A kept line with a parenthesis that is not closed, between uses of a macro. -/
def keptText : Text :=
  ascii "#define X 1\nX\n%: pragma (x\nX\n"

/-- A kept line with the name of a macro. -/
def expandedLine : Text :=
  ascii "#define X 1\n#pragma X\n"

end Sample

/-- Neither the macro nor the open parenthesis concerns the line. -/
theorem lineFate_of_unknown_keptText :
    ∃ pre l s x x',
      Reaches (ActiveText.ofSource (Lexer.ofText Sample.keptText) {} true) pre x ∧
      x.AtLine l s ∧ Token.spelling (l.hash :: l.tokens) = ascii "%: pragma (x\n" ∧
      LineFate { keepUnknown := true } [] Sample.keptText x.state.table (l.hash :: l.tokens) x' ∧
      Printer.render (({ keepUnknown := true } : Preprocessor).run [] Sample.keptText).1.tokens =
        ascii "\n1\n%: pragma (x\n1\n" := by
  have hahead : (Source.ahead 3
      (ActiveText.ofSource (Lexer.ofText Sample.keptText) {} true)).any (fun (_, x) =>
        x.line?.any fun (l, _) => Token.spelling (l.hash :: l.tokens) = ascii "%: pragma (x\n" ∧
          ∀ t ∈ l.hash :: l.tokens, t.kind = .identifier →
            t.text ≠ Vocabulary.variadicName ∧ x.state.table.lookup t.text = none) = true := by
    decide +kernel
  have hrun : (({ keepUnknown := true } : Preprocessor).runWithin 20 Sample.keptText).any (fun r =>
      Printer.render r.1 = ascii "\n1\n%: pragma (x\n1\n") = true := by
    decide +kernel
  obtain ⟨⟨pre, x⟩, hx, hline⟩ := (Option.any_eq_true _ _).1 hahead
  obtain ⟨⟨l, s⟩, hl, hcheck⟩ := (Option.any_eq_true _ _).1 hline
  obtain ⟨hspelling, hnames⟩ := of_decide_eq_true hcheck
  obtain ⟨⟨out, e, T⟩, hr, hout⟩ := (Option.any_eq_true _ _).1 hrun
  have hreaches := Source.reaches_of_ahead hx
  have hat := ActiveText.atLine_of_line? hl
  obtain ⟨x', -, hfate⟩ :=
    lineFate_of_unknown (p := { keepUnknown := true }) rfl [] Sample.keptText
      hreaches hat (Table.leaves_of_undefined hnames)
  obtain ⟨events, hrun⟩ := run_of_runWithin hr []
  refine ⟨pre, l, s, x, x', hreaches, hat, hspelling, hfate, ?_⟩
  rw [hrun]
  exact of_decide_eq_true hout

/-- The macro on the line is expanded: the line is not in the output. -/
theorem not_kept_expandedLine :
    ∃ pre l s x,
      Reaches (ActiveText.ofSource (Lexer.ofText Sample.expandedLine) {} true) pre x ∧
      x.AtLine l s ∧ Token.spelling (l.hash :: l.tokens) = ascii "#pragma X\n" ∧
      ∀ us ls vs, Token.Alike ls (l.hash :: l.tokens) →
        (({ keepUnknown := true } : Preprocessor).run [] Sample.expandedLine).1.tokens ≠
          us ++ ls ++ vs := by
  have hahead : (Source.ahead 1
      (ActiveText.ofSource (Lexer.ofText Sample.expandedLine) {} true)).any (fun (_, x) =>
        x.line?.any fun (l, _) => Token.spelling (l.hash :: l.tokens) = ascii "#pragma X\n" ∧
          (l.hash :: l.tokens).any (Token.isIdent (ascii "X"))) = true := by
    decide +kernel
  have hrun : (({ keepUnknown := true } : Preprocessor).runWithin 20 Sample.expandedLine).any
      (fun r => !r.1.any (Token.isIdent (ascii "X"))) = true := by
    decide +kernel
  obtain ⟨⟨pre, x⟩, hx, hline⟩ := (Option.any_eq_true _ _).1 hahead
  obtain ⟨⟨l, s⟩, hl, hcheck⟩ := (Option.any_eq_true _ _).1 hline
  obtain ⟨hspelling, hname⟩ := of_decide_eq_true hcheck
  obtain ⟨⟨out, e, T⟩, hr, hout⟩ := (Option.any_eq_true _ _).1 hrun
  obtain ⟨events, hrun⟩ := run_of_runWithin hr []
  refine ⟨pre, l, s, x, Source.reaches_of_ahead hx, ActiveText.atLine_of_line? hl,
    hspelling, ?_⟩
  intro us ls vs halike heq
  rw [hrun] at heq
  have hls : ls.any (Token.isIdent (ascii "X")) = true := by
    have hmap (ts : List Token) : (ts.map Token.unplaced).any (Token.isIdent (ascii "X")) =
        ts.any (Token.isIdent (ascii "X")) := by
      rw [List.any_map]
      rfl
    rw [← hmap, halike, hmap]
    exact hname
  rw [show out = us ++ ls ++ vs from heq, List.any_append, List.any_append, hls] at hout
  simp at hout

end Preprocessor
end CPreprocessor

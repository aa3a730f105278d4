import CPreprocessor.Proofs.Condition.Nameless
import CPreprocessor.Proofs.Directive.Seam
import CPreprocessor.Proofs.Lexer.Shortening

/-!
Text that is skipped. In an inactive group the tokens of a text are passed over, whatever they
are, up to the next directive. A group opened by `#if 0` is inactive for every macro table.
-/

namespace CPreprocessor

open Directive
open Lexer (space Space)

namespace Source

variable {σ : Type} [Source σ] {s : σ} {ts : List Token} {e : End}

theorem pull_of_content {t : Token} (h : content s = (t :: ts, e)) :
    ∃ s₁, pull s = .token t s₁ ∧ content s₁ = (ts, e) := by
  cases hp : pull s with
  | stop f s₁ =>
      rw [content_of_stop hp] at h
      cases h
  | token u s₁ =>
      rw [content_of_token hp] at h
      cases h
      exact ⟨s₁, rfl, rfl⟩

theorem pull_of_content_nil (h : content s = ([], e)) : ∃ s₁, pull s = .stop e s₁ := by
  cases hp : pull s with
  | stop f s₁ =>
      rw [content_of_stop hp] at h
      cases h
      exact ⟨s₁, rfl⟩
  | token u s₁ =>
      rw [content_of_token hp] at h
      cases h

end Source

theorem Line.read_of_content {σ : Type} [Feed σ] {s : σ} {ts us : List Token}
    {w : Token} {e : End} (h : Source.content s = (ts ++ w :: us, e))
    (hts : ∀ t ∈ ts, t.isLineEnd = false) (hw : w.isLineEnd = true) :
    ∃ s₁, read s = (⟨ts ++ [w], .eof⟩, s₁) ∧ Source.content s₁ = (us, e) := by
  induction ts generalizing s with
  | nil =>
      obtain ⟨s₁, hp, hs₁⟩ := Source.pull_of_content h
      refine ⟨s₁, ?_, hs₁⟩
      rw [read_of_token hp, if_pos hw]
      rfl
  | cons t ts ih =>
      obtain ⟨s₁, hp, hs₁⟩ := Source.pull_of_content h
      obtain ⟨s₂, hr, hs₂⟩ := ih hs₁ fun u hu => hts u (List.mem_cons_of_mem t hu)
      refine ⟨s₂, ?_, hs₂⟩
      rw [read_of_token hp, if_neg (by simp [hts t List.mem_cons_self]), hr]
      rfl

/-- A text without directives has no directive at its first token and none behind it. -/
theorem Item.line_notMem_cons {start : Bool} {t : Token} {ts : List Token} :
    (∀ i, .line i ∉ ofTokens start (t :: ts)) ↔
      ¬(start && t.isHash) = true ∧
        ∀ i, .line i ∉ ofTokens (ActiveText.startsLine start t) ts := by
  rw [ofTokens]
  split
  · rename_i ht
    exact ⟨fun h => absurd List.mem_cons_self (h _), fun h => absurd ht h.1⟩
  · rename_i ht
    refine ⟨fun h => ⟨ht, fun i hi => h i (List.mem_cons_of_mem _ hi)⟩, fun h i hi => ?_⟩
    exact h.2 i ((List.mem_cons.1 hi).resolve_left (by rintro ⟨⟩))

namespace Lexer

/-- A lexer that has come to the end has no glyphs left. -/
theorem rest_of_content {l : Lexer} (h : Source.content l = ([], .eof)) : l.rest = [] := by
  obtain ⟨l₁, hp⟩ := Source.pull_of_content_nil h
  change l.pull = _ at hp
  unfold pull at hp
  split at hp
  · assumption
  · split at hp <;> cases hp

/-- A text that ends a line goes up to a line break with white space behind it. Up to there it
is scanned to the end as well, and directives begin where they did. -/
theorem exists_parts_of_content {gs : List Glyph} {stop : Pos} {ts : List Token}
    (h : Source.content (⟨gs, stop, true⟩ : Lexer) = (ts, .eof)) {w : Token}
    (hw : ts.getLast? = some w) (hline : w.isLineEnd = true) :
    ∃ us vs ws, Parts gs us vs ∧ Source.content (⟨us, stop, true⟩ : Lexer) = (ws, .eof) ∧
      ∀ start, (∀ i, .line i ∉ Item.ofTokens start ts) →
        ∀ i, .line i ∉ Item.ofTokens start ws := by
  induction gs using lexeme_induction stop true generalizing ts with
  | nil =>
      rw [content_nil] at h
      cases h
      cases hw
  | error g gs e hy =>
      rw [content_error hy] at h
      cases h
  | token g gs y hy ih =>
      rw [content_cons hy] at h
      obtain ⟨rfl, hend⟩ := Prod.mk.inj h
      cases hrest : (Source.content (⟨y.cut.rest, stop, true⟩ : Lexer)).1 with
      | cons u us =>
          rw [hrest, List.getLast?_cons_cons, ← hrest] at hw
          obtain ⟨us, vs, ws, hp, hws, hitems⟩ := ih (Prod.ext rfl hend) hw
          obtain ⟨ts, x, htaken, hx, hm, hxrest⟩ := hp.lexeme hy
          have hparts := hp.prepend y.cut.taken
          rw [← Cut.whole, (cuts_lexeme hy).whole] at hparts
          refine ⟨y.cut.taken ++ us, vs, place g.pos x :: ws, hparts, ?_,
            fun start hstart => ?_⟩
          · rw [htaken, List.cons_append, content_cons hx, hxrest, hws]
          · have hplace := place_unplaced hm g.pos g.pos
            obtain ⟨ht, hstart⟩ := Item.line_notMem_cons.1 hstart
            rw [← hrest] at hstart
            rw [Item.line_notMem_cons, Token.congr_unplaced hplace Token.isHash_unplaced,
              Token.congr_unplaced hplace (f := ActiveText.startsLine start) fun _ => rfl]
            exact ⟨ht, hitems _ hstart⟩
      | nil =>
          have hnil : y.cut.rest = [] :=
            rest_of_content (l := ⟨y.cut.rest, stop, true⟩) (Prod.ext hrest hend)
          rw [hrest] at hw
          cases hw
          obtain ⟨hk, hnl⟩ := Bool.and_eq_true_iff.1 hline
          unfold lexeme at hy
          split at hy
          · cases hy
          · rename_i s hs
            split at hy
            · exact absurd (beq_iff_eq.1 hk) (kind_ne_whitespace_of_solidLexeme hy)
            · cases hy
              obtain ⟨us, vs, r, hp, hr, hrest, hrnl⟩ := exists_parts_of_space hs hnil hnl
              have htext : r.text ≠ [] := by
                intro ht
                rw [eq_none_of_space hr ht] at hrnl
                cases hrnl
              obtain ⟨t, hpull, hsp, -⟩ :=
                pull_of_space (l := ⟨us, stop, true⟩) hr htext
              refine ⟨us, vs, [t], hp, ?_, fun start _ => Item.line_notMem_cons.2 ⟨?_, ?_⟩⟩
              · rw [Source.content_of_token hpull, hrest, content_nil]
              · simp [Token.isHash, Token.not_isPunct_of_isSpace hsp]
              · simp [Item.ofTokens]

/-- White space that goes on to the end of a longer text is its last token. -/
theorem getLast_of_follows {ks : List Glyph} {u : Space} (hks : space ks = some u)
    (hu : u.cut.rest = []) {l l' : Lexer} (h : Follows (some ks) l l') {ts : List Token}
    (hts : Source.content l = (ts, .eof)) :
    ∃ w, (Source.content l').1.getLast? = some w ∧ w.isSpace = true := by
  induction ts generalizing l l' with
  | nil =>
      have hrest := h.rest
      rw [rest_of_content hts] at hrest
      cases hrest.of_nil.1
  | cons t ts ih =>
      obtain ⟨l₁, hpull, hl₁⟩ := Source.pull_of_content hts
      rcases follow_pull h hpull with ⟨t', s, hs, -, hf⟩ | ⟨ks', htail, -, hacross⟩
      · obtain ⟨w, hw, hsp⟩ := ih hf hl₁
        refine ⟨w, ?_, hsp⟩
        rw [Source.content_of_token hs, List.getLast?_cons, hw]
        rfl
      · cases htail
        obtain ⟨t', ⟨rest, stop, tolerant⟩, hs, hc, hr, -⟩ := hacross _ hks
        obtain rfl : rest = [] := hr.trans hu
        refine ⟨t', ?_, (Bool.and_eq_true_iff.1 hc.isLineEnd').1⟩
        rw [Source.content_of_token hs, content_nil]
        rfl

end Lexer

namespace ActiveText

/-- Inactive text without directives is passed over, with the white space behind its line end. -/
theorem pull_of_skipped {ks : List Glyph} {u : Space} (hks : space ks = some u) {l : Lexer}
    {x : ActiveText Lexer} (hl : Lexer.Follows (some ks) l x.input) (hp : x.pending = [])
    (ha : x.state.active = false) {ts : List Token} (hts : Source.content l = (ts, .eof))
    (hitems : ∀ i, .line i ∉ Item.ofTokens x.lineStart ts) :
    ∃ l' : Lexer, l'.rest = u.cut.rest ∧ l'.tolerant = x.input.tolerant ∧
      x.pull = pull { x with input := l', lineStart := true } := by
  induction ts generalizing l x with
  | nil =>
      have hrest := hl.rest
      rw [Lexer.rest_of_content hts] at hrest
      cases hrest.of_nil.1
  | cons t ts ih =>
      obtain ⟨ht, hitems⟩ := Item.line_notMem_cons.1 hitems
      obtain ⟨l₁, hpull, hl₁⟩ := Source.pull_of_content hts
      rcases Lexer.follow_pull hl hpull with ⟨t', s, hs, hu, hf⟩ | ⟨ks', htail, -, hacross⟩
      · rw [Token.congr_unplaced hu Token.isHash_unplaced] at ht
        have hx := pull_of_text hp hs ht
        rw [if_neg (by simp [ha])] at hx
        have hstart : startsLine x.lineStart t = startsLine x.lineStart t' :=
          Token.congr_unplaced hu (f := startsLine x.lineStart) fun _ => rfl
        rw [hstart] at hitems
        obtain ⟨l', hr, hm, hpull'⟩ := ih
          (x := { x with input := s, lineStart := startsLine x.lineStart t' }) hf hp ha hl₁ hitems
        exact ⟨l', hr, hm.trans (Lexer.tolerant_of_pull hs), hx.trans hpull'⟩
      · cases htail
        obtain ⟨t', s, hs, hc, hr, hm⟩ := hacross _ hks
        have hsp := (Bool.and_eq_true_iff.1 hc.isLineEnd').1
        have hx := pull_of_text hp hs (by simp [Token.isHash, Token.not_isPunct_of_isSpace hsp])
        rw [if_neg (by simp [ha]), startsLine, if_pos hc.isLineEnd'] at hx
        exact ⟨s, hr, hm.trans hl.tolerant, hx⟩

namespace Skipping

/-- The line that opens a group which is skipped. -/
def opening : Text :=
  ascii "#if 0\n"

def hash : Token :=
  { kind := .punctuator, text := ascii "#", pos := .start, length := 1 }

def name : Token :=
  { kind := .identifier, text := ascii "if", pos := ⟨1, 1, 2⟩, length := 2 }

def gap : Token :=
  { kind := .whitespace, text := ascii " ", pos := ⟨3, 1, 4⟩, length := 1 }

def zero : Token :=
  { kind := .number, text := ascii "0", pos := ⟨4, 1, 5⟩, length := 1 }

def newline : Token :=
  { kind := .whitespace, text := ascii "\n", pos := ⟨5, 1, 6⟩, length := 1, newline := true }

/-- The state behind that line. -/
def state (T : Table) : State :=
  { table := T, groups := [⟨name.text, name.pos, true, false, false, false⟩],
    events := [⟨name.text, name.pos, 1⟩] }

theorem content_opening :
    Source.content (Lexer.ofText opening) = ([hash, name, gap, zero, newline], .eof) :=
  Source.content_of_runWithin (n := 6) (by decide +kernel)

theorem execute_opening (keep : Bool) (T : Table) :
    execute keep hash ⟨[name, gap, zero, newline], .eof⟩ { table := T } =
      (state T, .ok [newline]) := by
  have hzero : Constant.number zero = .ok .zero := by
    rfl
  have hholds : Condition.holds T name.pos [gap, zero] = .ok false :=
    Condition.holds_of_number (by decide) (t := zero) (by decide) rfl hzero T _
  have hheading : HashLine.heading? ⟨hash, [name, gap, zero, newline]⟩ =
      some (.ifHolds, name, [gap, zero, newline]) := by
    decide +kernel
  have hcheck : State.conditionCheck name ⟨[gap, zero, newline], .eof⟩ { table := T } =
      .ok (false, some newline) := by
    rw [HashLine.conditionCheck_eof]
    exact congrArg _ hholds
  rw [HashLine.execute_of_heading?_eq_some (l := ⟨hash, [name, gap, zero, newline]⟩)
    hheading keep]
  simp only [State.run, hcheck]
  rfl

end Skipping

/-- A lexer in the group that is skipped. -/
def Skipping.inside (T : Table) (keep : Bool) (l : Lexer) : ActiveText Lexer :=
  { input := { l with tolerant := true }, state := Skipping.state T, keepUnknown := keep }

open Skipping (opening inside)

/-- Behind the opening line a text goes on in the group, as it would begin there behind the
white space in front of it. -/
theorem pull_opening (T : Table) (keep : Bool) {t : Text} {s : Space}
    (hs : space (Lexer.ofText t).rest = some s) {l : Lexer} (hl : l.rest = s.cut.rest) :
    ∃ w x, pull (.ofSource (Lexer.ofText (opening ++ t)) T keep) = .token w x ∧
      w.isSpace = true ∧ Tracks none (inside T keep l) x := by
  have hline : opening.EndsLine :=
    ⟨ascii "#if 0", Byte.lineFeed, by decide, by decide, by decide, fun _ => by decide⟩
  obtain ⟨r, hlead⟩ := Glyph.leads_spliced_append hline .start .start t
  obtain ⟨u, hu, -, hrest⟩ := Lexer.space_spliced hs r
  have hclear : Clear (some (Glyph.spliced r t).2) := by
    rintro _ ⟨⟩
    exact ⟨u, hu⟩
  have htracks : Tracks (some (Glyph.spliced r t).2) (.ofSource (Lexer.ofText opening) T keep)
      (.ofSource (Lexer.ofText (opening ++ t)) T keep) :=
    ⟨⟨hlead, rfl⟩, rfl, rfl, rfl, rfl, .refl []⟩
  obtain ⟨l₀, hp, hcontent⟩ := Source.pull_of_content Skipping.content_opening
  obtain ⟨l₁, hr, hend⟩ := @Line.read_of_content _ _ _ [Skipping.name, Skipping.gap,
    Skipping.zero] _ _ _ hcontent (by decide) rfl
  obtain ⟨x, hx, hT | ⟨ks, v, htail, hv, hb, hseam⟩⟩ :=
    follow_line hclear htracks rfl hp rfl hr (Skipping.execute_opening keep T)
  · have hlead := hT.input.rest
    simp only [Feed.tolerate, Lexer.rest_of_content hend] at hlead
    cases hlead.of_nil.1
  · cases htail
    rw [hu] at hv
    cases hv
    have hmode : x.input.tolerant = true := by
      rw [hb.mode, ← active_eq hb.state]
      rfl
    rcases hseam with hseam | ⟨hnil, -⟩
    · generalize hpend : x.pending = ps at hseam
      cases hseam with
      | last hc =>
          refine ⟨_, _, hx.trans (pull_of_pending hpend),
            (Bool.and_eq_true_iff.1 hc.isLineEnd').1,
            ⟨?_, hmode.symm⟩, rfl, hb.state, hb.keepUnknown, hb.lineStart.symm, .refl []⟩
          simp only [inside, hl, hb.rest]
          exact hrest
      | cons _ _ hseam => cases hseam
    · cases hnil

end ActiveText
end CPreprocessor

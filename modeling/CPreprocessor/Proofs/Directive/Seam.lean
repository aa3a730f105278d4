import CPreprocessor.Proofs.Directive.BrokenLine
import CPreprocessor.Proofs.Directive.Placement
import CPreprocessor.Proofs.Lexer.Seam
import CPreprocessor.Proofs.Macro.ExpandedText

/-!
Active text across a line end. A text and the same text with more behind it are executed alike
up to the line end: the macros and the groups are the same, and so are the tokens handed out,
but for the last one, which has the white space of what follows behind it. With nothing behind
it a text is executed alike wherever it stands, to its end or to the error that it fails with.
-/

namespace CPreprocessor

open Directive
open Lexer (space Space)

namespace Token

/-- Token lists of one line that differ in the places and in the white space at the end. -/
inductive Seam (lead : Text) : List Token → List Token → Prop where
  | last {w w'} : w.Continues lead w' → Seam lead [w] [w']
  | cons {t t' ts ts'} : t.isLineEnd = false → t.unplaced = t'.unplaced → Seam lead ts ts' →
      Seam lead (t :: ts) (t' :: ts')

theorem bare_eq {t t' : Token} (h : t.unplaced = t'.unplaced) : t.bare = t'.bare :=
  congr_unplaced h fun _ => rfl

theorem Alike.bare {ts us : List Token} (h : Alike ts us) : ts.map bare = us.map bare := by
  have hb : Token.bare = Token.bare ∘ unplaced := rfl
  rw [hb, ← List.map_map, h, List.map_map]

namespace Seam

variable {lead : Text} {ts ts' : List Token}

theorem bare (h : Seam lead ts ts') : ts.map bare = ts'.map bare := by
  induction h with
  | last hw => rw [List.map_singleton, List.map_singleton, Token.bare, Token.bare,
      if_pos hw.isLineEnd, if_pos hw.isLineEnd']
  | cons _ hu _ ih => rw [List.map_cons, List.map_cons, ih, bare_eq hu]

theorem find? (h : Seam lead ts ts') :
    ∃ w w', ts.find? isLineEnd = some w ∧ ts'.find? isLineEnd = some w' ∧
      w.Continues lead w' := by
  induction h with
  | last hw =>
      exact ⟨_, _, List.find?_cons_of_pos hw.isLineEnd,
        List.find?_cons_of_pos hw.isLineEnd', hw⟩
  | cons ht hu _ ih =>
      obtain ⟨w, w', hf, hf', hw⟩ := ih
      have ht' := (isLineEnd_eq hu).symm.trans ht
      refine ⟨w, w', ?_, ?_, hw⟩
      · rw [List.find?_cons_of_neg (by simp [ht]), hf]
      · rw [List.find?_cons_of_neg (by simp [ht']), hf']

theorem exists_cons (h : Seam lead ts ts') : ∃ u us, ts' = u :: us := by
  cases h with
  | last _ => exact ⟨_, _, rfl⟩
  | cons _ _ _ => exact ⟨_, _, rfl⟩

/-- The tokens are those in front of the line end and the line end. -/
theorem whole (h : Seam lead ts ts') :
    (ts.takeWhile fun t => !t.isLineEnd) ++ (ts.find? isLineEnd).toList = ts ∧
      (ts'.takeWhile fun t => !t.isLineEnd) ++ (ts'.find? isLineEnd).toList = ts' := by
  induction h with
  | last hw => simp [hw.isLineEnd, hw.isLineEnd']
  | cons ht hu _ ih =>
      have ht' := (isLineEnd_eq hu).symm.trans ht
      simp only [List.takeWhile_cons, List.find?_cons, ht, ht', Bool.not_false, if_true,
        List.cons_append, ih.1, ih.2, and_self]

end Seam
end Token

theorem Directive.lineBreak_continues {lead : Text} {w w' : Token} (h : w.Continues lead w') :
    ∃ v v', lineBreak (some w) = [v] ∧ lineBreak (some w') = [v'] ∧ v.Continues lead v' := by
  obtain ⟨b, hmem, hb⟩ := h.lineBreak
  have hdrop := @List.dropWhile_append _ (fun b => !Byte.isLineBreak b) w.text lead
  cases hw : w.text.dropWhile fun b => !Byte.isLineBreak b with
  | nil =>
      have hwhole := List.takeWhile_append_dropWhile (p := fun b => !Byte.isLineBreak b)
        (l := w.text)
      rw [hw, List.append_nil] at hwhole
      rw [← hwhole] at hmem
      have hall := List.all_eq_true.1 List.all_takeWhile b hmem
      simp [hb] at hall
  | cons c r =>
      have hc : Byte.isLineBreak c = true := by
        have := List.head?_dropWhile_not (fun b => !Byte.isLineBreak b) w.text
        simpa [hw] using this
      rw [hw] at hdrop
      refine ⟨{ w with text := c :: r }, { w' with text := c :: (r ++ lead) }, ?_, ?_,
        h.isLineEnd, h.isLineEnd', ⟨c, List.mem_cons_self, hc⟩, rfl⟩
      · simp only [lineBreak, hw]
      · simp only [lineBreak, h.text, hdrop]
        rfl

theorem Directive.lineBreak_unplaced (o : Option Token) :
    lineBreak (o.map Token.unplaced) = (lineBreak o).map Token.unplaced := by
  cases o with
  | none => rfl
  | some t =>
      simp only [lineBreak, Option.map_some, Token.text_unplaced]
      cases t.text.dropWhile fun b => !Byte.isLineBreak b <;> rfl

namespace HashLine

variable {l l' : HashLine}

theorem bare_eq (hh : l.hash.unplaced = l'.hash.unplaced)
    (hl : l.tokens.map Token.bare = l'.tokens.map Token.bare) : l.bare = l'.bare := by
  rw [bare, bare, hh, hl]

/-- A line that is executed is executed again at another place. -/
theorem execute_again {t t' : Token} {ts ts' : List Token} (hu : t.unplaced = t'.unplaced)
    (hts : ts.map Token.bare = ts'.map Token.bare) {st st' : State}
    (hst : st.unplaced = st'.unplaced) {keep : Bool} {st₁ : State} {out : List Token}
    (hx : execute keep t ⟨ts, .eof⟩ st = (st₁, .ok out)) :
    out = remains keep st.active st₁.active ⟨t, ts⟩ ∧
      ∃ st₁', execute keep t' ⟨ts', .eof⟩ st' =
          (st₁', .ok (remains keep st'.active st₁'.active ⟨t', ts'⟩)) ∧
        st₁.unplaced = st₁'.unplaced := by
  obtain ⟨hst₁, hv⟩ :=
    execute_alike ⟨t, ts⟩ ⟨t', ts'⟩ (bare_eq hu hts) (.refl .eof) hst keep
  simp only at hst₁ hv
  rw [hx] at hst₁ hv
  refine ⟨eq_remains_of_execute hx, ?_⟩
  generalize hx' : execute keep t' ⟨ts', .eof⟩ st' = q at hst₁ hv
  obtain ⟨st₁', out'⟩ := q
  obtain ⟨out', rfl, -⟩ := ok_of_verdict_map_eq hv
  obtain rfl := eq_remains_of_execute (l := ⟨t', ts'⟩) hx'
  exact ⟨st₁', rfl, hst₁⟩

theorem remains_alike (hh : l.hash.unplaced = l'.hash.unplaced)
    (hl : Token.Alike l.tokens l'.tokens) (keep before after : Bool) :
    Token.Alike (l.remains keep before after) (l'.remains keep before after) := by
  have htake (ts : List Token) : (ts.map Token.unplaced).takeWhile (fun t => !t.isLineEnd) =
      (ts.takeWhile fun t => !t.isLineEnd).map Token.unplaced := by
    rw [List.takeWhile_map]
    rfl
  have hfind (ts : List Token) : (ts.map Token.unplaced).find? Token.isLineEnd =
      (ts.find? Token.isLineEnd).map Token.unplaced := by
    rw [List.find?_map]
    rfl
  have hstop : (l.tokens.find? Token.isLineEnd).map Token.unplaced =
      (l'.tokens.find? Token.isLineEnd).map Token.unplaced := by
    rw [← hfind, ← hfind, hl]
  have hunknown : l.unknown = l'.unknown := by
    rw [← unknown_bare, bare_eq hh hl.bare, unknown_bare]
  unfold remains
  rw [hunknown]
  split
  · refine (Token.Alike.cons hh (hl.apply htake)).append ?_
    have := congrArg Option.toList hstop
    rwa [Option.toList_map, Option.toList_map] at this
  · split
    · rw [Token.Alike, breaks_eq, breaks_eq, ← lineBreak_unplaced, ← lineBreak_unplaced, hstop]
    · exact .refl []

/-- In active text something remains of a line, with the white space that ends it behind it. -/
theorem remains_seam {lead : Text} (hh : l.hash.unplaced = l'.hash.unplaced)
    (hl : Token.Seam lead l.tokens l'.tokens) (hs : l.hash.isLineEnd = false)
    (keep : Bool) {before after : Bool} (ha : (before || after) = true) :
    Token.Seam lead (l.remains keep before after) (l'.remains keep before after) := by
  have hunknown : l.unknown = l'.unknown := by
    rw [← unknown_bare, bare_eq hh hl.bare, unknown_bare]
  unfold remains
  rw [hunknown]
  split
  · rw [List.cons_append, List.cons_append, hl.whole.1, hl.whole.2]
    exact .cons hs hh hl
  · rw [breaks_eq, breaks_eq]
    obtain ⟨w, w', hf, hf', hw⟩ := hl.find?
    obtain ⟨v, v', hv, hv', hc⟩ := lineBreak_continues hw
    rw [hf, hf', hv, hv']
    exact .last hc

end HashLine

/-- What follows can be scanned as white space: a comment that it opens is closed. -/
def Clear (tail : Option (List Glyph)) : Prop :=
  ∀ ks, tail = some ks → ∃ u, space ks = some u

theorem Clear.none : Clear none :=
  fun ks hks => by cases hks

namespace Line

section Equations

variable {σ : Type} [Feed σ] {s s₁ : σ}

theorem read_of_stop {e : End} (h : Source.pull s = .stop e s₁) :
    read s = (⟨[], e⟩, s₁) := by
  rw [read]
  split <;> simp_all

theorem read_of_token {t : Token} (h : Source.pull s = .token t s₁) :
    read s = if t.isLineEnd then (⟨[t], .eof⟩, s₁)
      else ({ (read s₁).1 with tokens := t :: (read s₁).1.tokens }, (read s₁).2) := by
  rw [read]
  split <;> simp_all

end Equations

variable {tail : Option (List Glyph)}

/-- What the second lexer reads as a line if the first reads one. Where more follows, a line
that breaks off is not compared. -/
inductive Follows (tail : Option (List Glyph)) : Line × Lexer → Line × Lexer → Prop where
  | broken {l s r} : tail ≠ none → l.Broken → Follows tail (l, s) r
  | same {ts ts' e e' s s'} :
      Token.Alike ts ts' → e.Akin e' → e = .eof ∨ Broken ⟨ts, e⟩ →
      Lexer.Follows tail s s' → Follows tail (⟨ts, e⟩, s) (⟨ts', e'⟩, s')
  | across {ks u ts ts' s s'} :
      tail = some ks → space ks = some u → Token.Seam u.text ts ts' →
      s.rest = [] → s'.rest = u.cut.rest →
      Follows tail (⟨ts, .eof⟩, s) (⟨ts', .eof⟩, s')

theorem Broken.cons {l : Line} {t : Token} (h : l.Broken) (ht : t.isLineEnd = false) :
    Broken { l with tokens := t :: l.tokens } := by
  refine ⟨h.1, ?_⟩
  intro v hv
  rcases List.mem_cons.1 hv with rfl | hv
  · exact ht
  · exact h.2 v hv

theorem Follows.cons {r r' : Line × Lexer} {t t' : Token} (h : Follows tail r r')
    (ht : t.isLineEnd = false) (hu : t.unplaced = t'.unplaced) :
    Follows tail ({ r.1 with tokens := t :: r.1.tokens }, r.2)
      ({ r'.1 with tokens := t' :: r'.1.tokens }, r'.2) := by
  cases h with
  | broken htail hb => exact .broken htail (hb.cons ht)
  | same hts he hb hs => exact .same (hts.cons hu) he (hb.imp id fun hb => hb.cons ht) hs
  | across htail hspace hts hr hr' => exact .across htail hspace (.cons ht hu hts) hr hr'

theorem follow_read (hclear : Clear tail) {l l' : Lexer} (h : Lexer.Follows tail l l') :
    Follows tail (read l) (read l') := by
  have hnil {e : End} (he : e ≠ .eof) : Broken ⟨[], e⟩ := by
    refine ⟨?_, fun t ht => by cases ht⟩
    cases e with
    | eof => exact absurd rfl he
    | fault e => exact ⟨e, rfl⟩
  fun_induction read l generalizing l' with
  | case1 l e l₁ hp =>
      obtain ⟨rfl, ⟨-, e', hp', he⟩ | ⟨htail, he⟩⟩ := Lexer.follow_stop h hp
      · rw [read_of_stop hp']
        exact .same (.refl []) he (Decidable.or_iff_not_imp_left.2 hnil) h
      · exact .broken htail (hnil he)
  | case2 l t l₁ hp ht =>
      rcases Lexer.follow_pull h hp with ⟨t', l₁', hp', hu, hf⟩ | ⟨ks, htail, hr, hacross⟩
      · rw [read_of_token hp', if_pos ((Token.isLineEnd_eq hu).symm.trans ht)]
        exact .same ((Token.Alike.refl []).cons hu) (.refl .eof) (.inl rfl) hf
      · obtain ⟨u, hspace⟩ := hclear ks htail
        obtain ⟨t', l₁', hp', hc, hr', -⟩ := hacross u hspace
        rw [read_of_token hp', if_pos hc.isLineEnd']
        exact .across htail hspace (.last hc) hr hr'
  | case3 l t l₁ hp ht line l₂ hr ih =>
      rcases Lexer.follow_pull h hp with ⟨t', l₁', hp', hu, hf⟩ | ⟨ks, htail, -, hacross⟩
      · rw [read_of_token hp', if_neg ((Token.isLineEnd_eq hu) ▸ ht)]
        have hnext := (ih hf).cons (Bool.eq_false_iff.2 ht) hu
        rwa [hr] at hnext
      · obtain ⟨u, hspace⟩ := hclear ks htail
        obtain ⟨t', l₁', -, hc, -⟩ := hacross u hspace
        exact absurd hc.isLineEnd ht

theorem tolerant_read (l : Lexer) : (read l).2.tolerant = l.tolerant := by
  fun_induction read l with
  | case1 l e l₁ hp => rw [Lexer.eq_of_stop hp]
  | case2 l t l₁ hp ht => exact Lexer.tolerant_of_pull hp
  | case3 l t l₁ hp ht line l₂ hr ih =>
      rw [hr] at ih
      exact ih.trans (Lexer.tolerant_of_pull hp)

end Line

namespace ActiveText

section Equations

variable {σ : Type} [Feed σ] {x : ActiveText σ} {s s' : σ} {t : Token}

theorem pull_of_pending {ts : List Token} (h : x.pending = t :: ts) :
    x.pull = .token t { x with pending := ts } := by
  rw [pull]
  split <;> simp_all

theorem pull_of_eof (h : x.pending = []) (hs : Source.pull x.input = .stop .eof s) :
    x.pull = .stop x.state.groups.atEnd { x with input := s } := by
  rw [pull]
  split
  · simp_all
  · split <;> simp_all

theorem pull_of_fault {e : Error} (h : x.pending = [])
    (hs : Source.pull x.input = .stop (.fault e) s) :
    x.pull = .stop (.fault e) { x with input := s } := by
  rw [pull]
  split
  · simp_all
  · split <;> simp_all

theorem pull_of_text (h : x.pending = []) (hs : Source.pull x.input = .token t s)
    (ht : ¬(x.lineStart && t.isHash) = true) :
    x.pull = if x.state.active then
        .token t { x with input := s, lineStart := startsLine x.lineStart t }
      else pull { x with input := s, lineStart := startsLine x.lineStart t } := by
  rw [pull]
  split
  · simp_all
  · split
    · simp_all
    · simp_all
    · rename_i t' s₁ hs'
      rw [hs] at hs'
      cases hs'
      rw [if_neg ht]

theorem pull_of_line {line : Line} {state : State} {out : List Token} (h : x.pending = [])
    (hs : Source.pull x.input = .token t s) (ht : (x.lineStart && t.isHash) = true)
    (hr : Line.read s = (line, s'))
    (hx : execute x.keepUnknown t line x.state = (state, .ok out)) :
    x.pull = pull { x with
      input := Feed.tolerate (!state.active) s', state, lineStart := true, pending := out } := by
  rw [pull]
  split
  · simp_all
  · split
    · simp_all
    · simp_all
    · rename_i t' s₁ hs'
      rw [hs] at hs'
      cases hs'
      rw [if_pos ht]
      split
      rename_i line' s₂ hr'
      rw [hr] at hr'
      cases hr'
      simp only [hx]
      cases out with
      | nil => simp only [h]
      | cons u us =>
          have hu := pull_of_pending (x := { x with
            input := Feed.tolerate (!state.active) s', state, lineStart := true,
            pending := u :: us }) rfl
          exact hu.symm

theorem pull_of_failed_line {line : Line} {state : State} {e : Error} (h : x.pending = [])
    (hs : Source.pull x.input = .token t s) (ht : (x.lineStart && t.isHash) = true)
    (hr : Line.read s = (line, s'))
    (hx : execute x.keepUnknown t line x.state = (state, .error e)) :
    x.pull = .stop (.fault e) { x with input := s', state, lineStart := false } := by
  rw [pull]
  split
  · simp_all
  · split
    · simp_all
    · simp_all
    · rename_i t' s₁ hs'
      rw [hs] at hs'
      cases hs'
      rw [if_pos ht]
      split
      rename_i line' s₂ hr'
      rw [hr] at hr'
      cases hr'
      simp only [hx]

end Equations

variable {tail : Option (List Glyph)} {x x' : ActiveText Lexer}

/-- Two texts in the same state, the second with more behind it. The mode of the lexers is that
of the text. -/
structure Tracks (tail : Option (List Glyph)) (x x' : ActiveText Lexer) : Prop where
  input : Lexer.Follows tail x.input x'.input
  mode : x.input.tolerant = !x.state.active
  state : x.state.unplaced = x'.state.unplaced
  keepUnknown : x.keepUnknown = x'.keepUnknown
  lineStart : x.lineStart = x'.lineStart
  pending : Token.Alike x.pending x'.pending

/-- The first text is used up, and the second goes on behind the white space `u`. -/
structure Beyond (u : Space) (x x' : ActiveText Lexer) : Prop where
  used : x.input.rest = []
  rest : x'.input.rest = u.cut.rest
  mode : x'.input.tolerant = !x'.state.active
  state : x.state.unplaced = x'.state.unplaced
  keepUnknown : x.keepUnknown = x'.keepUnknown
  lineStart : x'.lineStart = true

namespace Tracks

theorem pending_nil (h : Tracks tail x x') (hp : x.pending = []) : x'.pending = [] := by
  have hpend := h.pending
  rw [hp] at hpend
  exact hpend.of_nil

/-- A directive line begins in both texts or in none. -/
theorem isHash_eq (h : Tracks tail x x') {t t' : Token} (hu : t.unplaced = t'.unplaced) :
    (x'.lineStart && t'.isHash) = (x.lineStart && t.isHash) := by
  rw [h.lineStart, Token.isHash_eq hu]

theorem of_pending (h : Tracks tail x x') {ts ts' : List Token} (hts : Token.Alike ts ts') :
    Tracks tail { x with pending := ts } { x' with pending := ts' } :=
  ⟨h.input, h.mode, h.state, h.keepUnknown, h.lineStart, hts⟩

/-- Behind a token that both lexers scan. -/
theorem next (h : Tracks tail x x') {t t' : Token} {s s' : Lexer}
    (hs : x.input.pull = .token t s) (hu : t.unplaced = t'.unplaced)
    (hf : Lexer.Follows tail s s') :
    Tracks tail { x with input := s, lineStart := startsLine x.lineStart t }
      { x' with input := s', lineStart := startsLine x'.lineStart t' } := by
  refine ⟨hf, (Lexer.tolerant_of_pull hs).trans h.mode, h.state, h.keepUnknown, ?_, h.pending⟩
  rw [h.lineStart]
  exact Token.congr_unplaced hu (f := startsLine x'.lineStart) fun _ => rfl

end Tracks

theorem Beyond.of_pending {u : Space} (h : Beyond u x x') (ts ts' : List Token) :
    Beyond u { x with pending := ts } { x' with pending := ts' } :=
  ⟨h.used, h.rest, h.mode, h.state, h.keepUnknown, h.lineStart⟩

theorem active_eq {st st' : State} (h : st.unplaced = st'.unplaced) : st.active = st'.active := by
  rw [← State.active_unplaced, h, State.active_unplaced]

/-- What the second text does when the first is asked for a token. -/
inductive Matches (tail : Option (List Glyph)) (x' : ActiveText Lexer) :
    Pull (ActiveText Lexer) → Prop where
  | fault {e y} : tail ≠ none → Matches tail x' (.stop (.fault e) y)
  | stop {e e' y y'} : tail = none → x'.pull = .stop e' y' → e.Akin e' → Tracks tail y y' →
      Matches tail x' (.stop e y)
  | token {t t' y y'} : x'.pull = .token t' y' → t.unplaced = t'.unplaced → Tracks tail y y' →
      Matches tail x' (.token t y)
  | across {ks u t t' y y'} : tail = some ks → space ks = some u → x'.pull = .token t' y' →
      Token.Seam u.text (t :: y.pending) (t' :: y'.pending) → Beyond u y y' →
      Matches tail x' (.token t y)

theorem Matches.of_pull_eq {z' : ActiveText Lexer} {p : Pull (ActiveText Lexer)}
    (h : x'.pull = z'.pull) (hm : Matches tail z' p) : Matches tail x' p := by
  cases hm with
  | fault htail => exact .fault htail
  | stop htail hp he hR => exact .stop htail (h.trans hp) he hR
  | token hp hu hR => exact .token (h.trans hp) hu hR
  | across htail hspace hp hs hb => exact .across htail hspace (h.trans hp) hs hb

/-- A text that ends inside a group fails, and where more follows no error is compared. -/
theorem Matches.of_inactive_end (htail : tail ≠ none) (hp : x.pending = [])
    (hr : x.input.rest = []) (ha : x.state.active = false) : Matches tail x' x.pull := by
  have hs : Source.pull x.input = .stop .eof x.input := by
    change Lexer.pull _ = _
    simp only [Lexer.pull, hr]
  rw [pull_of_eof hp hs]
  cases hg : x.state.groups with
  | nil =>
      rw [State.active, hg] at ha
      cases ha
  | cons g gs => exact .fault htail

/-- A directive line in both texts: they go on alike behind it, or it is the last of the first
text. Then its white space remains, unless the text is not active around it. -/
theorem follow_line (hclear : Clear tail) (h : Tracks tail x x') (hp : x.pending = []) {t : Token}
    {s s₁ : Lexer} {line : Line} {state : State} {out : List Token}
    (hs : Source.pull x.input = .token t s) (ht : (x.lineStart && t.isHash) = true)
    (hr : Line.read s = (line, s₁))
    (hx : execute x.keepUnknown t line x.state = (state, .ok out)) :
    ∃ z', x'.pull = z'.pull ∧
      (Tracks tail { x with
          input := Feed.tolerate (!state.active) s₁, state, lineStart := true,
          pending := out } z' ∨
        ∃ ks u, tail = some ks ∧ space ks = some u ∧
          Beyond u { x with
            input := Feed.tolerate (!state.active) s₁, state, lineStart := true,
            pending := out } z' ∧
          (Token.Seam u.text out z'.pending ∨ (out = [] ∧ state.active = false))) := by
  have hpend := h.pending_nil hp
  have hhash : t.isHash = true := (Bool.and_eq_true_iff.1 ht).2
  have hend : t.isLineEnd = false := by
    cases he : t.isLineEnd with
    | false => rfl
    | true =>
        have hsp := (Bool.and_eq_true_iff.1 he).1
        simp [Token.isHash, Token.not_isPunct_of_isSpace hsp] at hhash
  rcases Lexer.follow_pull h.input hs with ⟨t', s', hs', hu, hf⟩ | ⟨ks, htail, -, hacross⟩
  · have ht' := (h.isHash_eq hu).trans ht
    have hread := Line.follow_read hclear hf
    rw [hr] at hread
    generalize hr' : Line.read s' = r at hread
    have hbroken {l : Line} (hl : execute x.keepUnknown t l x.state = (state, .ok out)) :
        ¬l.Broken := by
      intro hb
      have hnone := hb.execute x.keepUnknown t x.state
      rw [hl] at hnone
      cases hnone
    cases hread with
    | broken _ hb => exact absurd hb (hbroken hx)
    | @same ts ts' e e' _ s₁' hts he hb hf₁ =>
        obtain rfl := hb.resolve_right (hbroken hx)
        cases he.of_eof
        obtain ⟨rfl, state', hx', hst⟩ := HashLine.execute_again hu hts.bare h.state hx
        rw [h.keepUnknown] at hx'
        refine ⟨_, pull_of_line hpend hs' ht' hr' hx', .inl ⟨⟨hf₁.rest, ?_⟩, rfl, hst,
          h.keepUnknown, rfl, ?_⟩⟩
        · exact congrArg not (active_eq hst)
        · rw [active_eq h.state, active_eq hst, h.keepUnknown]
          exact HashLine.remains_alike hu hts _ _ _
    | @across ks u ts ts' _ s₁' htail hspace hts hrest hrest' =>
        obtain ⟨rfl, state', hx', hst⟩ := HashLine.execute_again hu hts.bare h.state hx
        rw [h.keepUnknown] at hx'
        refine ⟨_, pull_of_line hpend hs' ht' hr' hx', .inr ⟨ks, u, htail, hspace,
          ⟨hrest, hrest', rfl, hst, h.keepUnknown, rfl⟩, ?_⟩⟩
        rw [active_eq h.state, active_eq hst, h.keepUnknown]
        cases ha : (x'.state.active || state'.active) with
        | true => exact .inl (HashLine.remains_seam hu hts hend _ ha)
        | false =>
            rw [Bool.or_eq_false_iff] at ha
            refine .inr ⟨?_, ha.2⟩
            simp [HashLine.remains, ha.1, ha.2]
  · obtain ⟨u, hspace⟩ := hclear ks htail
    obtain ⟨t', l', -, hc, -⟩ := hacross u hspace
    rw [hc.isLineEnd] at hend
    cases hend

/-- A directive line that fails: where nothing follows it fails in both texts. -/
theorem follow_failed_line (hclear : Clear tail) (h : Tracks tail x x') (hp : x.pending = [])
    {t : Token} {s s₁ : Lexer} {line : Line} {state : State} {e : Error}
    (hs : Source.pull x.input = .token t s) (ht : (x.lineStart && t.isHash) = true)
    (hr : Line.read s = (line, s₁))
    (hx : execute x.keepUnknown t line x.state = (state, .error e)) :
    Matches tail x' (.stop (.fault e) { x with input := s₁, state, lineStart := false }) := by
  cases tail with
  | some ks => exact .fault (by simp)
  | none =>
      have hpend := h.pending_nil hp
      rcases Lexer.follow_pull h.input hs with ⟨t', s', hs', hu, hf⟩ | ⟨ks, htail, -⟩
      · have ht' := (h.isHash_eq hu).trans ht
        have hread := Line.follow_read hclear hf
        rw [hr] at hread
        generalize hr' : Line.read s' = r at hread
        cases hread with
        | broken htail => exact absurd rfl htail
        | @same ts ts' f f' _ s₁' hts he _ hf₁ =>
            obtain ⟨hst, hv⟩ := HashLine.execute_alike ⟨t, ts⟩ ⟨t', ts'⟩
              (HashLine.bare_eq hu hts.bare) he h.state x.keepUnknown
            simp only at hst hv
            rw [hx, h.keepUnknown] at hst hv
            generalize hx' : execute x'.keepUnknown t' ⟨ts', f'⟩ x'.state = q at hst hv
            obtain ⟨state', out'⟩ := q
            obtain ⟨e', rfl, hk⟩ := error_of_verdict_map_eq hv
            refine .stop rfl (pull_of_failed_line hpend hs' ht' hr' hx') (.fault hk)
              ⟨hf₁, ?_, hst, h.keepUnknown, rfl, h.pending⟩
            have htol := Line.tolerant_read s
            rw [hr] at htol
            rw [htol, Lexer.tolerant_of_pull hs, h.mode, State.active_of_execute_error hx]
        | across htail => cases htail
      · cases htail

/-- What remains of a directive line is handed out by both texts. -/
theorem follow_remaining_line (hclear : Clear tail) (h : Tracks tail x x') (hp : x.pending = [])
    {t u : Token} {s s₁ : Lexer} {line : Line} {state : State} {ts : List Token}
    (hs : Source.pull x.input = .token t s) (ht : (x.lineStart && t.isHash) = true)
    (hr : Line.read s = (line, s₁))
    (hx : execute x.keepUnknown t line x.state = (state, .ok (u :: ts))) :
    Matches tail x' (.token u { x with
      input := Feed.tolerate (!state.active) s₁, state, lineStart := true, pending := ts }) := by
  obtain ⟨z', hz, hT | ⟨ks, u, htail, hspace, hb, hseam | ⟨hnil, -⟩⟩⟩ :=
    follow_line hclear h hp hs ht hr hx
  · obtain ⟨u', ts', hp', hu, hts⟩ := hT.pending.of_cons
    exact .token (hz.trans (pull_of_pending hp')) hu (hT.of_pending hts)
  · obtain ⟨u', ts', hp'⟩ := hseam.exists_cons
    rw [hp'] at hseam
    exact .across htail hspace (hz.trans (pull_of_pending hp')) hseam (hb.of_pending ts ts')
  · cases hnil

/-- A token outside the directive lines: it is in both texts, or it is the last one of the first
text and goes on in the second. -/
theorem follow_text (hclear : Clear tail) (h : Tracks tail x x') (hp : x.pending = []) {t : Token}
    {s : Lexer} (hs : Source.pull x.input = .token t s) (ht : ¬(x.lineStart && t.isHash) = true) :
    ∃ t' y', x'.pull = (if x.state.active then .token t' y' else pull y') ∧
      ((t.unplaced = t'.unplaced ∧
          Tracks tail { x with input := s, lineStart := startsLine x.lineStart t } y') ∨
        ∃ ks u, tail = some ks ∧ space ks = some u ∧
          Token.Seam u.text (t :: x.pending) (t' :: y'.pending) ∧
          Beyond u { x with input := s, lineStart := startsLine x.lineStart t } y') := by
  have hpend := h.pending_nil hp
  rw [active_eq h.state]
  rcases Lexer.follow_pull h.input hs with ⟨t', s', hs', hu, hf⟩ | ⟨ks, htail, hr, hacross⟩
  · have ht' : ¬(x'.lineStart && t'.isHash) = true := by
      rwa [h.isHash_eq hu]
    exact ⟨t', _, pull_of_text hpend hs' ht', .inl ⟨hu, h.next hs hu hf⟩⟩
  · obtain ⟨u, hspace⟩ := hclear ks htail
    obtain ⟨t', s', hs', hc, hr', htol⟩ := hacross u hspace
    have hsp := (Bool.and_eq_true_iff.1 hc.isLineEnd').1
    have ht' : ¬(x'.lineStart && t'.isHash) = true := by
      simp [Token.isHash, Token.not_isPunct_of_isSpace hsp]
    refine ⟨t', _, pull_of_text hpend hs' ht', .inr ⟨ks, u, htail, hspace, ?_, hr, hr', ?_,
      h.state, h.keepUnknown, ?_⟩⟩
    · simp only [hp, hpend]
      exact .last hc
    · simp only [htol, h.mode, active_eq h.state]
    · simp [startsLine, hc.isLineEnd']

theorem follow_pull (hclear : Clear tail) (h : Tracks tail x x') : Matches tail x' x.pull := by
  fun_induction pull x generalizing x' with
  | case1 x t ts hp =>
      have hpend := h.pending
      rw [hp] at hpend
      obtain ⟨t', ts', hp', hu, hts⟩ := hpend.of_cons
      exact .token (pull_of_pending hp') hu (h.of_pending hts)
  | case2 x hp s hs =>
      obtain ⟨rfl, ⟨htail, e', hs', he⟩ | ⟨-, he⟩⟩ := Lexer.follow_stop h.input hs
      · cases he.of_eof
        have hg : x.state.groups.unplaced = x'.state.groups.unplaced := (State.mk.inj h.state).2.1
        exact .stop htail (pull_of_eof (h.pending_nil hp) hs') (Groups.akin_atEnd hg) h
      · exact absurd rfl he
  | case3 x hp e s hs =>
      obtain ⟨rfl, ⟨htail, e', hs', he⟩ | ⟨htail, -⟩⟩ := Lexer.follow_stop h.input hs
      · obtain ⟨f, rfl, hk⟩ := he.of_fault
        exact .stop htail (pull_of_fault (h.pending_nil hp) hs') he h
      · exact .fault htail
  | case4 x hp t s hs ht line s₁ hr state e hx => exact follow_failed_line hclear h hp hs ht hr hx
  | case5 x hp t s hs ht line s₁ hr state t₁ ts hx =>
      exact follow_remaining_line hclear h hp hs ht hr hx
  | case6 x hp t s hs ht line s₁ hr state hx ih =>
      obtain ⟨z', hz, hline⟩ := follow_line hclear h hp hs ht hr hx
      obtain ⟨input, st, keep, start, pending⟩ := x
      obtain rfl : pending = [] := hp
      rcases hline with hT | ⟨ks, u, htail, -, hb, hseam | ⟨-, ha⟩⟩
      · exact (ih hT).of_pull_eq hz
      · cases hseam
      · exact .of_inactive_end (by simp [htail]) rfl hb.used ha
  | case7 x hp t s hs ht ha =>
      obtain ⟨t', y', hpull, hline⟩ := follow_text hclear h hp hs ht
      rw [if_pos ha] at hpull
      rcases hline with ⟨hu, hT⟩ | ⟨ks, u, htail, hspace, hseam, hb⟩
      · exact .token hpull hu hT
      · exact .across htail hspace hpull hseam hb
  | case8 x hp t s hs ht ha ih =>
      obtain ⟨t', y', hpull, hline⟩ := follow_text hclear h hp hs ht
      rw [if_neg ha] at hpull
      rcases hline with ⟨-, hT⟩ | ⟨ks, u, htail, -, -, hb⟩
      · exact (ih hT).of_pull_eq hpull
      · exact .of_inactive_end (by simp [htail]) hp hb.used (Bool.eq_false_iff.2 ha)

/-- Two texts on the way to the line end, or on the line that it ends. -/
inductive Follow (tail : Option (List Glyph)) (x x' : ActiveText Lexer) : Prop where
  | tracks : Tracks tail x x' → Follow tail x x'
  | parts {ks u} : tail = some ks → space ks = some u → Beyond u x x' →
      Token.Seam u.text x.pending x'.pending → Follow tail x x'

theorem Follow.state (h : Follow tail x x') : x.state.unplaced = x'.state.unplaced := by
  cases h with
  | tracks hT => exact hT.state
  | parts _ _ hb _ => exact hb.state

/-- A token is handed out by both texts, or it is the last one of the first text. -/
theorem follow_token (hclear : Clear tail) (h : Follow tail x x') {t : Token}
    {y : ActiveText Lexer} (hp : x.pull = .token t y) :
    (∃ t' y', x'.pull = .token t' y' ∧ t.unplaced = t'.unplaced ∧ Follow tail y y') ∨
      ∃ ks u t' y', tail = some ks ∧ space ks = some u ∧ x'.pull = .token t' y' ∧
        t.Continues u.text t' ∧ Beyond u y y' ∧ y.pending = [] ∧ y'.pending = [] := by
  have hsplit {ks : List Glyph} {u : Space} {t t' : Token} {y y' : ActiveText Lexer}
      (htail : tail = some ks) (hspace : space ks = some u) (hb : Beyond u y y')
      (hseam : Token.Seam u.text (t :: y.pending) (t' :: y'.pending)) :
      (t.unplaced = t'.unplaced ∧ Follow tail y y') ∨
        (t.Continues u.text t' ∧ y.pending = [] ∧ y'.pending = []) := by
    generalize hy : y.pending = ps at hseam
    generalize hy' : y'.pending = ps' at hseam
    cases hseam with
    | last hc => exact .inr ⟨hc, rfl, rfl⟩
    | cons _ hu hseam =>
        rw [← hy, ← hy'] at hseam
        exact .inl ⟨hu, .parts htail hspace hb hseam⟩
  cases h with
  | tracks hT =>
      have hm := follow_pull hclear hT
      rw [hp] at hm
      cases hm with
      | token hp' hu hT' => exact .inl ⟨_, _, hp', hu, .tracks hT'⟩
      | @across ks u _ t' _ y' htail hspace hp' hseam hb =>
          rcases hsplit htail hspace hb hseam with ⟨hu, hF⟩ | ⟨hc, hnil, hnil'⟩
          · exact .inl ⟨t', y', hp', hu, hF⟩
          · exact .inr ⟨ks, u, t', y', htail, hspace, hp', hc, hb, hnil, hnil'⟩
  | @parts ks u htail hspace hb hseam =>
      generalize hx : x.pending = ps at hseam
      generalize hx' : x'.pending = ps' at hseam
      cases hseam with
      | last hc =>
          rw [pull_of_pending hx] at hp
          cases hp
          exact .inr
            ⟨ks, u, _, _, htail, hspace, pull_of_pending hx', hc, hb.of_pending _ _, rfl, rfl⟩
      | cons _ hu hseam =>
          rw [pull_of_pending hx] at hp
          cases hp
          exact .inl
            ⟨_, _, pull_of_pending hx', hu, .parts htail hspace (hb.of_pending _ _) hseam⟩

theorem keepUnknown_pull {σ : Type} [Feed σ] (x : ActiveText σ) :
    x.pull.state.keepUnknown = x.keepUnknown := by
  fun_induction pull x with
  | case1 | case2 | case3 | case4 | case5 | case7 => rfl
  | case6 _ _ _ _ _ _ _ _ _ _ _ ih => exact ih
  | case8 _ _ _ _ _ _ _ ih => exact ih

/-- Where a text has come to its end and the other one is behind it, the other one goes on as a
text of its own, with the macros of the first. -/
theorem Beyond.tracks {u : Space} {z : ActiveText Lexer} {l : Lexer} (h : Beyond u x x')
    (hp : x.pending = []) (hp' : x'.pending = []) (hstop : x.pull = .stop .eof z)
    (hl : Glyph.Leads none l.rest u.cut.rest) (hm : l.tolerant = false) :
    Tracks none (.ofSource l z.state.table x.keepUnknown) x' := by
  have hs : Source.pull x.input = .stop .eof x.input := by
    change Lexer.pull _ = _
    simp only [Lexer.pull, h.used]
  rw [pull_of_eof hp hs] at hstop
  obtain ⟨hend, rfl⟩ := Pull.stop.inj hstop
  have hgroups : x.state.groups = [] := by
    cases hg : x.state.groups with
    | nil => rfl
    | cons g gs =>
        rw [hg] at hend
        cases hend
  have hactive : x.state.active = true := by
    rw [State.active, hgroups]
    rfl
  refine ⟨⟨?_, ?_⟩, hm, ?_, h.keepUnknown, h.lineStart.symm, ?_⟩
  · rw [h.rest]
    exact hl
  · rw [h.mode, ← active_eq h.state, hactive]
    exact hm
  · rw [← h.state, State.unplaced, State.unplaced, hgroups]
    rfl
  · rw [hp']
    exact .refl []

/-- What is done with unknown directives does not change on the way. -/
theorem follows (hclear : Clear tail) (keep : Bool) :
    Source.Follows (tail ≠ none) fun x x' => Follow tail x x' ∧ x.keepUnknown = keep where
  token {x x' y t} h hp := by
    have hkeep := keepUnknown_pull x
    rw [show x.pull = _ from hp] at hkeep
    rcases follow_token hclear h.1 hp with
      ⟨u, y', hp', hu, hF⟩ | ⟨ks, u, t', y', htail, -, -, hc, hb, hnil, -⟩
    · exact .inl ⟨u, y', hp', hu, hF, hkeep.trans h.2⟩
    · refine .inr ⟨by simp [htail], (Bool.and_eq_true_iff.1 hc.isLineEnd).1, ?_⟩
      have hs : Source.pull y.input = .stop .eof y.input := by
        change Lexer.pull _ = _
        simp only [Lexer.pull, hb.used]
      rw [Source.content_of_stop (pull_of_eof hnil hs)]
  stop {x x' y e} h hp := by
    have hkeep := keepUnknown_pull x
    rw [show x.pull = _ from hp] at hkeep
    obtain ⟨hF, hx⟩ := h
    change x.pull = _ at hp
    cases hF with
    | tracks hT =>
        have hm := follow_pull hclear hT
        rw [hp] at hm
        cases hm with
        | fault htail => exact .inr ⟨htail, by simp⟩
        | stop htail hp' he hT' =>
            exact .inl ⟨by simp [htail], _, _, hp', he, .tracks hT', hkeep.trans hx⟩
    | parts _ _ _ hseam =>
        generalize hx : x.pending = ps at hseam
        generalize x'.pending = ps' at hseam
        cases hseam with
        | last _ =>
            rw [pull_of_pending hx] at hp
            cases hp
        | cons _ _ _ =>
            rw [pull_of_pending hx] at hp
            cases hp
  table h := (State.mk.inj h.1.state).1

end ActiveText
end CPreprocessor

import CPreprocessor.Proofs.Lexer.Failure
import CPreprocessor.Proofs.Lexer.Location
import CPreprocessor.Proofs.Lexer.Tiling
import CPreprocessor.Proofs.Source.LineTable

/-!
Positions count lines. The line of an offset is given by the line ends before it and the column by
the last of them, read off the whole text or looked up in the table of its line starts. The lexer
counts along the text instead, over line joins, comments and raw strings; every token and every
error of it stands where the text says, and tokens that come later stand further on.
-/

namespace CPreprocessor
namespace Text

/-- The position is that of an offset in the text or at its end. -/
def Positions (src : Text) (p : Pos) : Prop :=
  ∃ n ≤ src.length, p = src.position n

variable {src : Text} {n : Nat}

/-- The positions along a text are those that its line ends give. -/
theorem along_positions {t : Text} (h : src.drop n = t) (hn : n ≤ src.length) :
    Pos.Along src.Positions (src.position n) t := by
  induction t generalizing n with
  | nil => exact ⟨n, hn, rfl⟩
  | cons b t ih =>
      have hlt : n < src.length := by
        refine Nat.lt_of_not_le fun hge => ?_
        rw [List.drop_eq_nil_of_le hge] at h
        cases h
      have ht : src.drop (n + 1) = t := by rw [← List.drop_drop, h]; rfl
      refine ⟨⟨n, hn, rfl⟩, ?_⟩
      rw [after_position h]
      exact ih ht hlt

end Text

/-- Further on in a text: behind, and on a later line or behind on the same line. -/
def Pos.Before (p q : Pos) : Prop :=
  p.offset < q.offset ∧ (p.line < q.line ∨ p.line = q.line ∧ p.col < q.col)

namespace Text

variable {src : Text}

theorem position_before_succ (src : Text) (n : Nat) :
    (src.position n).Before (src.position (n + 1)) := by
  rw [position_succ]
  split
  · exact ⟨Int.lt_succ _, .inl (Int.lt_succ _)⟩
  · exact ⟨Int.lt_succ _, .inr ⟨rfl, Int.lt_succ _⟩⟩

theorem position_before {m n : Nat} (h : m < n) : (src.position m).Before (src.position n) := by
  induction n with
  | zero => cases h
  | succ n ih =>
      have hnext := src.position_before_succ n
      rcases Nat.lt_succ_iff_lt_or_eq.1 h with hlt | rfl
      · obtain ⟨ho, hl⟩ := ih hlt
        obtain ⟨ho', hl'⟩ := hnext
        exact ⟨by omega, by omega⟩
      · exact hnext

theorem Positions.before {p q : Pos} (hp : src.Positions p) (hq : src.Positions q)
    (h : p.offset < q.offset) : p.Before q := by
  obtain ⟨m, -, rfl⟩ := hp
  obtain ⟨n, -, rfl⟩ := hq
  exact position_before (Int.ofNat_lt.1 h)

end Text

namespace Lexer

theorem placed_positions (src : Text) : (ofText src).Placed src.Positions := by
  refine placed_of_along ?_
  have hstart : src.position 0 = .start := rfl
  rw [← hstart]
  exact Text.along_positions rfl (Nat.zero_le _)

/-- The lexer of a text has handed out the tokens. Its mode may be changed at any time. -/
inductive Takes (src : Text) : List Token → Lexer → Prop where
  | start : Takes src [] (ofText src)
  | mode {ts l} (tolerant : Bool) : Takes src ts l → Takes src ts { l with tolerant }
  | token {ts t l l₁} :
      Takes src ts l → Source.pull l = .token t l₁ → Takes src (ts ++ [t]) l₁

/-- The tokens stand at positions of the text, one behind the other, and the lexer is behind
them. -/
structure Ordered (src : Text) (ts : List Token) (l : Lexer) : Prop where
  placed : l.Placed src.Positions
  positions : ∀ t ∈ ts, src.Positions t.pos
  increasing : ts.Pairwise fun t u => t.pos.Before u.pos
  behind : ∃ n, Stands src n l.rest ∧ ∀ t ∈ ts, t.pos.offset < n

variable {src : Text} {ts : List Token} {l l₁ : Lexer}

/-- A token stands where the lexer stands, and behind it the lexer stands further on. -/
theorem Stands.pull {n : Nat} (h : Stands src n l.rest) {t : Token}
    (hp : Source.pull l = .token t l₁) :
    t.pos.offset = n ∧ ∃ m, n < m ∧ Stands src m l₁.rest := by
  change l.pull = _ at hp
  unfold Lexer.pull at hp
  split at hp
  · cases hp
  · rename_i g gs hr
    rw [hr] at h
    split at hp
    · rename_i x hx
      cases hp
      have hlen := totalLength_pos (cuts_lexeme hx).taken_ne_nil
      exact ⟨h.placed.1, _, by omega, (h.lexeme hx).1⟩
    · cases hp

theorem Ordered.token (h : Ordered src ts l) {t : Token} (hp : Source.pull l = .token t l₁) :
    Ordered src (ts ++ [t]) l₁ := by
  obtain ⟨ht, hplaced⟩ := h.placed.token hp
  obtain ⟨n, hstands, hbefore⟩ := h.behind
  obtain ⟨hoffset, m, hlt, hnext⟩ := hstands.pull hp
  refine ⟨hplaced, ?_, ?_, m, hnext, ?_⟩
  · exact List.forall_mem_append.2 ⟨h.positions, List.forall_mem_singleton.2 ht⟩
  · refine List.pairwise_append.2 ⟨h.increasing, List.pairwise_singleton _ t, ?_⟩
    intro u hu v hv
    obtain rfl := List.mem_singleton.1 hv
    exact (h.positions u hu).before ht (hoffset ▸ hbefore u hu)
  · intro u hu
    rcases List.mem_append.1 hu with hu | hu
    · have := hbefore u hu
      omega
    · obtain rfl := List.mem_singleton.1 hu
      omega

theorem Takes.reaches (h : Takes src ts l) {us : List Token} (hr : Source.Reaches l us l₁) :
    Takes src (ts ++ us) l₁ := by
  induction hr generalizing ts with
  | refl => rwa [List.append_nil]
  | token hp _ ih =>
      have hrest := ih (h.token hp)
      rwa [List.append_assoc] at hrest

theorem Takes.ordered (h : Takes src ts l) : Ordered src ts l := by
  induction h with
  | start => exact ⟨placed_positions src, by simp, .nil, _, stands_ofText src, by simp⟩
  | mode tolerant _ ih =>
      exact ⟨⟨ih.placed.rest, ih.placed.stop⟩, ih.positions, ih.increasing, ih.behind⟩
  | token _ hp ih => exact ih.token hp

/-- Every token and every error of the lexer of a text stands at the position that the line ends
before it give, whatever the mode, and this is the position that is looked up for its offset in the
table of line starts. Later tokens have greater offsets and stand further on in lines and
columns. -/
theorem position_of_takes (src : Text) (ts : List Token) (l : Lexer) (h : Takes src ts l) :
    (∀ t ∈ ts, ∃ n ≤ src.length, t.pos = src.position n ∧ src.lookup n = some t.pos) ∧
      (∀ e l₁, Source.pull l = .stop (.fault e) l₁ →
        ∃ n ≤ src.length, e.pos = src.position n ∧ src.lookup n = some e.pos) ∧
      ts.Pairwise fun t u => t.pos.offset < u.pos.offset ∧
        (t.pos.line < u.pos.line ∨ t.pos.line = u.pos.line ∧ t.pos.col < u.pos.col) := by
  have hlookup {p : Pos} (hp : src.Positions p) :
      ∃ n ≤ src.length, p = src.position n ∧ src.lookup n = some p := by
    obtain ⟨n, hn, rfl⟩ := hp
    exact ⟨n, hn, rfl, Text.lookup_eq hn⟩
  have hordered := h.ordered
  refine ⟨fun t ht => hlookup (hordered.positions t ht), ?_, hordered.increasing⟩
  intro e l₁ hp
  rcases (hordered.placed.fault hp).pos with hpos | ⟨hfault, -⟩
  · exact hlookup hpos
  · have hk := (kind_of_pull hp).1
    rw [Error.kind, hfault] at hk
    cases hk

namespace Sample

/-- An unclosed literal that is tolerated, all three line ends and a line join, and another
unclosed literal. -/
def lineEnds : Text :=
  ascii "'a\r\nb\\\n c\r'"

end Sample

open Sample in
theorem position_of_takes_lineEnds :
    ∃ ts l e l₁, Takes lineEnds ts l ∧ Source.pull l = .stop (.fault e) l₁ ∧
      ts.map Token.pos = [⟨0, 1, 1⟩, ⟨2, 1, 3⟩, ⟨4, 2, 1⟩, ⟨7, 3, 1⟩,
        ⟨8, 3, 2⟩, ⟨9, 3, 3⟩] ∧
      e.pos = ⟨10, 4, 1⟩ ∧
      (∃ n ≤ lineEnds.length, e.pos = lineEnds.position n ∧
        lineEnds.lookup n = some e.pos) ∧
      ts.Pairwise fun t u => t.pos.offset < u.pos.offset ∧
        (t.pos.line < u.pos.line ∨ t.pos.line = u.pos.line ∧ t.pos.col < u.pos.col) := by
  have hcheck : (Source.ahead 6 { ofText lineEnds with tolerant := true }).any (fun r =>
      r.1.map Token.pos == [⟨0, 1, 1⟩, ⟨2, 1, 3⟩, ⟨4, 2, 1⟩, ⟨7, 3, 1⟩,
        ⟨8, 3, 2⟩, ⟨9, 3, 3⟩] &&
        match pull { r.2 with tolerant := false } with
        | .stop (.fault e) _ => e.pos == ⟨10, 4, 1⟩
        | _ => false) = true := by
    decide +kernel
  obtain ⟨⟨ts, l⟩, hr, hl⟩ := (Option.any_eq_true _ _).1 hcheck
  obtain ⟨hts, herror⟩ := Bool.and_eq_true_iff.1 hl
  have htakes : Takes lineEnds ts { l with tolerant := false } :=
    ((Takes.start.mode true).reaches (Source.reaches_of_ahead hr)).mode false
  simp only at herror
  split at herror
  · rename_i e l₁ hp
    obtain ⟨-, hfault, hincreasing⟩ := position_of_takes _ _ _ htakes
    exact ⟨ts, _, e, l₁, htakes, hp, beq_iff_eq.1 hts, beq_iff_eq.1 herror, hfault e l₁ hp,
      hincreasing⟩
  · cases herror

end Lexer
end CPreprocessor

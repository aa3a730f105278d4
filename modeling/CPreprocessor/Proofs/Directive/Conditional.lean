import CPreprocessor.Proofs.Directive.Selection
import CPreprocessor.Proofs.TokenStream.Content

/-!
Reading the kept text of a token sequence to its end executes its items in order, so it
gives what the tree of the sequence gives.
-/

namespace CPreprocessor

open Directive

theorem Line.ending_read (ts : List Token) : (Line.read ts).1.ending = .eof := by
  induction ts with
  | nil =>
      rw [read]
      rfl
  | cons t ts ih =>
      rw [read]
      simp only [Source.pull, TokenList.next]
      split
      · rfl
      · exact ih

namespace ActiveText

variable {σ : Type} [Feed σ] {x x' : ActiveText σ}

theorem outcome_of_token {t : Token} (h : x.pull = .token t x') :
    x.outcome = x'.outcome.after [t] := by
  have hn : TokenStream.next (Buffered.ofSource x) = .token t (Buffered.ofSource x') := by
    have h : Source.pull x = _ := h
    change Buffered.next _ = _
    simp only [Buffered.next, Buffered.ofSource, h]
  rw [outcome, outcome, TokenStream.drain_of_token hn]
  generalize TokenStream.drain (Buffered.ofSource x') = r
  obtain ⟨⟨out, _ | e⟩, r⟩ := r <;> rfl

theorem outcome_of_stop {e : End} (h : x.pull = .stop e x') :
    x.outcome = .ofEnd x'.state.table e := by
  have hn : TokenStream.next (Buffered.ofSource x) = .stop e ⟨x', [], some e⟩ := by
    have h : Source.pull x = _ := h
    change Buffered.next _ = _
    simp only [Buffered.next, Buffered.ofSource, h]
  rw [outcome, TokenStream.drain_of_stop hn]
  cases e <;> rfl

theorem outcome_of_pull_eq (h : x.pull = x'.pull) : x.outcome = x'.outcome := by
  cases hp : x'.pull with
  | token t y => rw [outcome_of_token (h.trans hp), outcome_of_token hp]
  | stop e y => rw [outcome_of_stop (h.trans hp), outcome_of_stop hp]

theorem outcome_pending (x : ActiveText σ) (ts : List Token) :
    outcome { x with pending := ts } = (outcome { x with pending := [] }).after ts := by
  induction ts with
  | nil => exact (Outcome.after_nil _).symm
  | cons t ts ih =>
      have hp : pull { x with pending := t :: ts } = .token t { x with pending := ts } := by
        rw [pull]
      rw [outcome_of_token hp, ih, Outcome.after_after]
      rfl

/-- Reading the kept text of a token list executes its items in order. -/
theorem outcome_eq_exec (ts : List Token) (st : State) (start : Bool) :
    outcome { input := ts, state := st, lineStart := start } =
      exec (Item.ofTokens start ts) st := by
  induction hn : ts.length using Nat.strongRecOn generalizing ts st start with
  | ind n ih =>
      cases ts with
      | nil =>
          have hp : pull { input := ([] : List Token), state := st, lineStart := start } =
              .stop st.groups.atEnd { input := [], state := st, lineStart := start } := by
            rw [pull]
            rfl
          rw [outcome_of_stop hp, Item.ofTokens, exec]
      | cons t ts =>
          rw [Item.ofTokens]
          by_cases hd : (start && t.isHash) = true
          · rw [if_pos hd, exec]
            have hlen : (Line.read ts).2.length < n :=
              hn ▸ Nat.lt_succ_of_le (Line.size_read_le ts)
            have hread : (Line.read ts).1 = ⟨(Line.read ts).1.tokens, .eof⟩ := by
              rw [← Line.ending_read ts]
            rcases hx : execute false t ⟨(Line.read ts).1.tokens, .eof⟩ st with ⟨st', r⟩
            have hnext := ih _ hlen (Line.read ts).2 st' true rfl
            cases r with
            | error e =>
                have hp : pull { input := t :: ts, state := st, lineStart := start } =
                    .stop (.fault e)
                      { input := (Line.read ts).2, state := st', lineStart := false } := by
                  rw [pull]
                  simp only [Source.pull, TokenList.next, hd, if_true]
                  rw [hread, hx]
                rw [outcome_of_stop hp]
                rfl
            | ok out =>
                have hp : outcome { input := t :: ts, state := st, lineStart := start } =
                    outcome { input := (Line.read ts).2, state := st', pending := out } := by
                  refine outcome_of_pull_eq ?_
                  rw [pull]
                  simp only [Source.pull, TokenList.next, hd, if_true]
                  rw [hread, hx]
                  cases out with
                  | nil => rfl
                  | cons u us =>
                      rw [pull]
                      rfl
                rw [hp, outcome_pending { input := (Line.read ts).2, state := st' }, hnext]
          · have hnext := ih ts.length (hn ▸ Nat.lt_succ_self _) ts st (startsLine start t) rfl
            rw [if_neg hd, exec]
            cases ha : st.active with
            | true =>
                have hp : pull { input := t :: ts, state := st, lineStart := start } =
                    .token t { input := ts, state := st, lineStart := startsLine start t } := by
                  rw [pull]
                  simp only [Source.pull, TokenList.next, hd, ha]
                  rfl
                rw [outcome_of_token hp, hnext]
                rfl
            | false =>
                have hp : pull { input := t :: ts, state := st, lineStart := start } =
                    pull { input := ts, state := st, lineStart := startsLine start t } := by
                  rw [pull]
                  simp only [Source.pull, TokenList.next, hd, ha]
                  rfl
                rw [outcome_of_pull_eq hp, hnext]
                exact (Outcome.after_nil _).symm

/-- Conditional text is read as its tree says: of each group the first branch whose condition
holds contributes its items, and nothing else is evaluated or kept but line breaks. -/
theorem drain_eq_iff_run {ts : List Token} {c : Code} (h : c.items = Item.ofTokens true ts)
    (T T' : Table) (out : List Token) :
    ((TokenStream.drain (Buffered.ofSource (ofSource ts T false))).1 = ⟨out, none⟩ ∧
        (TokenStream.drain (Buffered.ofSource (ofSource ts T false))).2.source.state.table = T') ↔
      c.run T = .ok (out, T') := by
  have hrun : (ofSource ts T false).outcome = c.run T := by
    have hnil : ∀ T ev, exec [] ⟨T, [], ev⟩ = .ok ([], T) := fun _ _ => rfl
    rw [ofSource, outcome_eq_exec, ← h, ← List.append_nil c.items, exec_code c rfl hnil]
    cases c.run T with
    | error e => rfl
    | ok r => simp
  rw [← hrun, outcome]
  generalize TokenStream.drain (Buffered.ofSource (ofSource ts T false)) = r
  obtain ⟨⟨ts', _ | e⟩, r⟩ := r <;> simp

namespace Sample

def word (s : String) : Token :=
  { kind := .identifier, text := ascii s }

def hash : Token :=
  { kind := .punctuator, text := ascii "#" }

def gap : Token :=
  Token.space {}

def newline : Token :=
  { kind := .whitespace, text := [Byte.lineFeed], newline := true }

/-- White space with a comment in front of its line break. -/
def remark : Token :=
  { kind := .whitespace, text := ascii " /* no A */ " ++ [Byte.lineFeed], newline := true }

/-- A group with two branches, the second of which defines the name that the first asks for and
takes back a definition in front of the group. -/
def tokens : List Token :=
  [hash, word "define", gap, word "B", newline, hash, word "ifdef", gap, word "A", newline,
    word "x", newline, hash, word "else", remark, hash, word "define", gap, word "A", newline,
    word "y", newline, hash, word "undef", gap, word "B", newline, hash, word "endif", newline]

def code : Code :=
  .line ⟨⟨hash, [word "define", gap, word "B", newline]⟩, rfl⟩
    (.group ⟨⟨hash, [word "ifdef", gap, word "A", newline]⟩, rfl⟩
      (.text (word "x") (.text newline .nil))
      (.otherwise ⟨⟨hash, [word "else", remark]⟩, rfl⟩
        (.line ⟨⟨hash, [word "define", gap, word "A", newline]⟩, rfl⟩
          (.text (word "y") (.text newline
            (.line ⟨⟨hash, [word "undef", gap, word "B", newline]⟩, rfl⟩ .nil))))
        ⟨⟨hash, [word "endif", newline]⟩, rfl⟩) .nil)

/-- What is left of the lines and of the selected branch. The comment is not. -/
def output : List Token :=
  [newline, newline, newline, newline, word "y", newline, newline, newline]

end Sample

theorem drain_sample :
    Sample.code.items = Item.ofTokens true Sample.tokens ∧
      (TokenStream.drain (Buffered.ofSource (ofSource Sample.tokens {} false))).1 =
        ⟨Sample.output, none⟩ ∧
      (TokenStream.drain (Buffered.ofSource
        (ofSource Sample.tokens {} false))).2.source.state.table =
          ⟨[{ name := ascii "A" }]⟩ := by
  have hi : Sample.code.items = Item.ofTokens true Sample.tokens := by decide +kernel
  have hr : (Sample.code.run {}).toOption =
      some (Sample.output, ⟨[{ name := ascii "A" }]⟩) := by
    decide +kernel
  refine ⟨hi, (drain_eq_iff_run hi {} _ _).2 ?_⟩
  cases h : Sample.code.run {} with
  | error e =>
      rw [h] at hr
      cases hr
  | ok r =>
      rw [h] at hr
      exact congrArg Except.ok (Option.some.inj hr)

end ActiveText
end CPreprocessor

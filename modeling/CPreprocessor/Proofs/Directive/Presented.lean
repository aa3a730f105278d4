import CPreprocessor.Proofs.Directive.Conditional
import CPreprocessor.Proofs.Directive.Seam
import CPreprocessor.Proofs.Lexer.Tolerance

/-!
The token sequence behind a feed. A feed presents a sequence if it hands out its tokens in order,
whatever it is told to tolerate, or breaks off with a lexical error on the way. A list presents
itself, and a lexer the tolerant tokens of its text. What is read off a feed line by line is then
what the sequence is made of.
-/

namespace CPreprocessor

variable {σ : Type} [Feed σ]

/-- `seq` gives the tokens that a feed has left. -/
structure Feed.Presents (seq : σ → List Token) : Prop where
  token {s s₁ : σ} {t : Token} : Source.pull s = .token t s₁ → seq s = t :: seq s₁
  eof {s s₁ : σ} : Source.pull s = .stop .eof s₁ → seq s = [] ∧ seq s₁ = []
  fault {s s₁ : σ} {e : Error} : Source.pull s = .stop (.fault e) s₁ → e.kind = .lexical
  tolerate (b : Bool) (s : σ) : seq (Feed.tolerate b s) = seq s

theorem Feed.presents_list : Feed.Presents fun ts : List Token => ts where
  token {ts _ _} h := by
    cases ts with
    | nil => cases h
    | cons t ts =>
        cases h
        rfl
  eof {ts _} h := by
    cases ts with
    | nil =>
        cases h
        exact ⟨rfl, rfl⟩
    | cons t ts => cases h
  fault {ts _ _} h := by
    cases ts with
    | nil => cases h
    | cons t ts => cases h
  tolerate _ _ := rfl

/-- The tokens that a lexer hands out if it tolerates malformed literals. -/
def Lexer.tolerated (l : Lexer) : List Token :=
  (Source.content { l with tolerant := true }).1

theorem Lexer.presents_tolerated : Feed.Presents tolerated where
  token {l l₁ t} h := by
    have hp : Source.pull ({ l with tolerant := true } : Lexer) =
        .token t { l₁ with tolerant := true } := pull_tolerant h
    rw [tolerated, Source.content_of_token hp]
    rfl
  eof {l l₁} h := by
    have hl : l₁ = l := eq_of_stop h
    have hr : l.rest = [] := by
      change l.pull = _ at h
      unfold pull at h
      split at h
      · assumption
      · split at h <;> cases h
    have hp : Source.pull ({ l with tolerant := true } : Lexer) =
        .stop .eof { l with tolerant := true } := by
      change pull _ = _
      simp only [pull, hr]
    rw [hl, tolerated, Source.content_of_stop hp]
    exact ⟨rfl, rfl⟩
  fault h := (kind_of_pull h).1
  tolerate _ _ := rfl

namespace Line

theorem read_nil : read ([] : List Token) = (⟨[], .eof⟩, []) :=
  read_of_stop rfl

theorem read_cons (t : Token) (ts : List Token) :
    read (t :: ts) = if t.isLineEnd then (⟨[t], .eof⟩, ts)
      else ({ (read ts).1 with tokens := t :: (read ts).1.tokens }, (read ts).2) :=
  read_of_token rfl

/-- A line and what is left behind it make up the list. -/
theorem tokens_read (ts : List Token) : (read ts).1.tokens ++ (read ts).2 = ts := by
  induction ts with
  | nil =>
      rw [read_nil]
      rfl
  | cons t ts ih =>
      rw [read_cons]
      split
      · rfl
      · exact congrArg (t :: ·) ih

/-- A line that stands alone is read as it was read. -/
theorem read_tokens (ts : List Token) : read (read ts).1.tokens = ((read ts).1, []) := by
  induction ts with
  | nil =>
      simp only [read_nil]
  | cons t ts ih =>
      rw [read_cons]
      split
      · rename_i ht
        rw [read_cons, if_pos ht]
      · rename_i ht
        rw [read_cons, if_neg ht, ih]

/-- Unless nothing is left behind it, a line is read alike whatever comes next. -/
theorem read_tokens_append (ts : List Token) :
    (read ts).2 = [] ∨ ∀ us, read ((read ts).1.tokens ++ us) = ((read ts).1, us) := by
  induction ts with
  | nil =>
      rw [read_nil]
      exact .inl rfl
  | cons t ts ih =>
      rw [read_cons]
      split
      · rename_i ht
        refine .inr fun us => ?_
        rw [List.singleton_append, read_cons, if_pos ht]
      · rename_i ht
        refine ih.imp id fun ih us => ?_
        rw [List.cons_append, read_cons, if_neg ht, ih]

/-- The line that comes off a feed is the one of its sequence, unless it breaks off. -/
theorem read_presented {seq : σ → List Token} (h : Feed.Presents seq) (s : σ) :
    ((read s).1.Broken ∧ ∃ e, (read s).1.ending = .fault e ∧ e.kind = .lexical) ∨
      read (seq s) = ((read s).1, seq (read s).2) := by
  fun_induction read s with
  | case1 s e s₁ hp =>
      cases e with
      | eof =>
          rw [(h.eof hp).1, (h.eof hp).2, read_nil]
          exact .inr rfl
      | fault e =>
          exact .inl ⟨⟨⟨e, rfl⟩, fun t ht => by cases ht⟩, e, rfl, h.fault hp⟩
  | case2 s t s₁ hp ht =>
      rw [h.token hp, read_cons, if_pos ht]
      exact .inr rfl
  | case3 s t s₁ hp ht line s₂ hr ih =>
      rw [h.token hp, read_cons, if_neg ht]
      rw [hr] at ih
      rcases ih with ⟨hb, e, he, hk⟩ | ih
      · exact .inl ⟨hb.cons (Bool.eq_false_iff.2 ht), e, he, hk⟩
      · rw [ih]
        exact .inr rfl

end Line

namespace Item

/-- Behind `pre` the items go on as if nothing came before, where `start` tells whether a
directive may begin there. -/
def Cut (pre : List Token) (start : Bool) : Prop :=
  ∀ us, ofTokens true (pre ++ us) = ofTokens true pre ++ ofTokens start us

theorem cut_nil : Cut [] true := by
  intro us
  rw [List.nil_append, show ofTokens true [] = [] by rw [ofTokens], List.nil_append]

variable {pre : List Token} {start : Bool} {t : Token}

theorem ofTokens_text (ht : ¬(start && t.isHash) = true) (us : List Token) :
    ofTokens start (t :: us) = .text t :: ofTokens (ActiveText.startsLine start t) us := by
  rw [ofTokens, if_neg ht]

theorem ofTokens_line (ht : (start && t.isHash) = true) (us : List Token) :
    ofTokens start (t :: us) =
      .line ⟨t, (Line.read us).1.tokens⟩ :: ofTokens true (Line.read us).2 := by
  rw [ofTokens, if_pos ht]

theorem Cut.ofTokens_text (h : Cut pre start) (ht : ¬(start && t.isHash) = true) :
    ofTokens true (pre ++ [t]) = ofTokens true pre ++ [.text t] := by
  rw [h, Item.ofTokens_text ht, ofTokens]

theorem Cut.text (h : Cut pre start) (ht : ¬(start && t.isHash) = true) :
    Cut (pre ++ [t]) (ActiveText.startsLine start t) := by
  intro us
  rw [h.ofTokens_text ht, List.append_assoc, h, List.singleton_append, Item.ofTokens_text ht]
  simp

theorem Cut.ofTokens_line (h : Cut pre start) (ht : (start && t.isHash) = true)
    (ts : List Token) : ofTokens true (pre ++ t :: (Line.read ts).1.tokens) =
      ofTokens true pre ++ [.line ⟨t, (Line.read ts).1.tokens⟩] := by
  rw [h, Item.ofTokens_line ht, Line.read_tokens, ofTokens]

/-- After a directive line the items start afresh, unless nothing is left. -/
theorem Cut.line (h : Cut pre start) (ht : (start && t.isHash) = true) (ts : List Token) :
    (Line.read ts).2 = [] ∨ Cut (pre ++ t :: (Line.read ts).1.tokens) true := by
  refine (Line.read_tokens_append ts).imp id fun hr us => ?_
  rw [h.ofTokens_line ht, List.append_assoc, h, List.cons_append, Item.ofTokens_line ht, hr]
  simp

end Item
end CPreprocessor

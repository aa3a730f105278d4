import CPreprocessor.Proofs.Directive.Location
import CPreprocessor.Proofs.Lexer.Location
import CPreprocessor.Proofs.Preprocessor.Run

/-!
Where a source text fails. Every error of a run names the file and stands in the text, with one
exception: where the text ends instead of the name that a definition or a removal is about, there
is no place.
-/

namespace CPreprocessor

open Directive
open Error (Located)

variable {S : Pos → Prop}

/-- Where the feed satisfies `I`, its tokens and its errors stand at positions of `S`. -/
structure Feed.Places {σ : Type} [Feed σ] (S : Pos → Prop) (I : σ → Prop) : Prop where
  token : ∀ {s s₁ t}, I s → Source.pull s = .token t s₁ → S t.pos ∧ I s₁
  stop : ∀ {s s₁ e}, I s → Source.pull s = .stop e s₁ →
    I s₁ ∧ ∀ f, e = .fault f → Located S f
  tolerate : ∀ {s} (b : Bool), I s → I (Feed.tolerate b s)

theorem Lexer.places (S : Pos → Prop) : Feed.Places S (Lexer.Placed S) where
  token h hp := h.token hp
  stop {s s₁ e} h hp := by
    obtain rfl := Lexer.eq_of_stop hp
    refine ⟨h, ?_⟩
    rintro f rfl
    exact h.fault hp
  tolerate _ h := ⟨h.rest, h.stop⟩

variable {σ : Type} [Feed σ] {I : σ → Prop}

theorem Line.placed_read (hI : Feed.Places S I) {s : σ} (h : I s) :
    (Line.read s).1.Placed S ∧ I (Line.read s).2 := by
  fun_induction Line.read s with
  | case1 s e s₁ hp =>
      obtain ⟨hs₁, he⟩ := hI.stop h hp
      exact ⟨⟨by simp, he⟩, hs₁⟩
  | case2 s t s₁ hp ht =>
      obtain ⟨ht, hs₁⟩ := hI.token h hp
      exact ⟨⟨List.forall_mem_singleton.2 ht, fun _ hf => by cases hf⟩, hs₁⟩
  | case3 s t s₁ hp _ line s₂ hr ih =>
      obtain ⟨ht, hs₁⟩ := hI.token h hp
      obtain ⟨hline, hs₂⟩ := ih hs₁
      rw [hr] at hline hs₂
      exact ⟨⟨List.forall_mem_cons.2 ⟨ht, hline.tokens⟩, hline.ending⟩, hs₂⟩

namespace ActiveText

/-- The input, the state and the tokens waiting are placed. -/
structure Placed (S : Pos → Prop) (I : σ → Prop) (x : ActiveText σ) : Prop where
  input : I x.input
  state : x.state.Placed S
  pending : ∀ t ∈ x.pending, S t.pos

variable {x : ActiveText σ}

omit [Feed σ] in
theorem Placed.ofSource {s : σ} (h : I s) {T : Table} (hT : T.All fun t => S t.pos)
    (keep : Bool) : (ActiveText.ofSource s T keep).Placed S I :=
  ⟨h, ⟨hT, nofun⟩, nofun⟩

/-- What is handed out is placed, and so is all that is left. -/
theorem placed_pull (hI : Feed.Places S I) (h : x.Placed S I) :
    (∀ t y, x.pull = .token t y → S t.pos) ∧
      (∀ e y, x.pull = .stop (.fault e) y → Located S e) ∧ x.pull.state.Placed S I := by
  -- What a directive line does to a text that starts with it.
  have hline {x : ActiveText σ} (h : x.Placed S I) {t : Token} {s s' : σ} {line : Line}
      (hp : Source.pull x.input = .token t s) (hr : Line.read s = (line, s')) {state : State}
      {r : Except Error (List Token)} (hx : execute x.keepUnknown t line x.state = (state, r)) :
      I s' ∧ state.Placed S ∧ FailsIn (Located S) r ∧
        ∀ {out}, r = .ok out → ∀ t ∈ out, S t.pos := by
    obtain ⟨ht, hs⟩ := hI.token h.input hp
    obtain ⟨hl, hs'⟩ := Line.placed_read hI hs
    rw [hr] at hl hs'
    have hexec := placed_execute h.state hl x.keepUnknown ht
    rw [hx] at hexec
    exact ⟨hs', hexec⟩
  fun_induction pull x with
  | case1 x t ts hpend =>
      have hpending := h.pending
      rw [hpend] at hpending
      obtain ⟨ht, hts⟩ := List.forall_mem_cons.1 hpending
      refine ⟨fun u y hp => ?_, fun _ _ hp => (by cases hp), h.input, h.state, hts⟩
      cases hp
      exact ht
  | case2 x hpend s hs =>
      refine ⟨fun u y hp => (by cases hp), fun e y hp => ?_, (hI.stop h.input hs).1, h.state,
        h.pending⟩
      exact h.state.groups.atEnd (Pull.stop.inj hp).1
  | case3 x hpend e s hs =>
      obtain ⟨hs₁, he⟩ := hI.stop h.input hs
      refine ⟨fun u y hp => (by cases hp), fun f y hp => ?_, hs₁, h.state, h.pending⟩
      cases hp
      exact he _ rfl
  | case4 x hpend t s hs _ line s' hr state e hx =>
      obtain ⟨hs', hstate, hfails, -⟩ := hline h hs hr hx
      refine ⟨fun u y hp => (by cases hp), fun f y hp => ?_, hs', hstate, h.pending⟩
      cases hp
      exact hfails _ rfl
  | case5 x hpend t s hs _ line s' hr state u us hx =>
      obtain ⟨hs', hstate, -, hout⟩ := hline h hs hr hx
      obtain ⟨hu, hus⟩ := List.forall_mem_cons.1 (hout rfl)
      refine ⟨fun v y hp => ?_, fun _ _ hp => (by cases hp), hI.tolerate _ hs', hstate, hus⟩
      cases hp
      exact hu
  | case6 x hpend t s hs _ line s' hr state hx ih =>
      obtain ⟨hs', hstate, -, -⟩ := hline h hs hr hx
      exact ih ⟨hI.tolerate _ hs', hstate, h.pending⟩
  | case7 x hpend t s hs _ ha =>
      obtain ⟨ht, hs₁⟩ := hI.token h.input hs
      refine ⟨fun u y hp => ?_, fun _ _ hp => (by cases hp), hs₁, h.state, h.pending⟩
      cases hp
      exact ht
  | case8 x hpend t s hs _ _ ih =>
      obtain ⟨-, hs₁⟩ := hI.token h.input hs
      exact ih ⟨hs₁, h.state, h.pending⟩

theorem keeps_placed (hI : Feed.Places S I) :
    Source.Keeps (fun t => S t.pos) (Placed S I : ActiveText σ → Prop) :=
  .of_pull (fun h => ⟨(placed_pull hI h).1, (placed_pull hI h).2.2⟩) fun h => h.state.table

theorem locates_placed (hI : Feed.Places S I) :
    Source.Locates S (Placed S I : ActiveText σ → Prop) where
  fault h hp := (placed_pull hI h).2.1 _ _ hp

end ActiveText

namespace Preprocessor

/-- Without macros predefined every error of a text names the file and stands in the text, or it
is about a name that the text has ended before. -/
theorem located_error_of_run {keep : Bool} {name src : Text} {e : Error}
    (he : (({ keepUnknown := keep } : Preprocessor).run name src).1.error = some e) :
    e.kind ∈ FaultKind.all ∧ e.file = name ∧
      (e.pos.Within src.length ∨ e.fault = .expectedIdentifier none ∧ e.pos = {}) := by
  obtain ⟨ts, end', y, h⟩ :=
    Source.Runs.exists_runs (expandedText src ({ keepUnknown := keep } : Preprocessor))
  rw [run_of_runs h name] at he
  cases end' with
  | eof => cases he
  | fault f =>
      cases he
      have hlexer := Lexer.places (Pos.Within src.length)
      have hI := ActiveText.keeps_placed hlexer
      have hL := ActiveText.locates_placed hlexer
      have hstart : (ActiveText.ofSource (Lexer.ofText src) {} keep).Placed (Pos.Within src.length)
          (Lexer.Placed (Pos.Within src.length)) :=
        .ofSource (Lexer.placed_ofText src) nofun keep
      have hlocated := (ExpandedText.locates_placed hI hL).runs (ExpandedText.keeps_placed hI hL) h
        ⟨.ofSource hstart, nofun⟩
      rw [Error.inFile, if_pos hlocated.file]
      refine ⟨?_, rfl, hlocated.pos⟩
      cases Error.kind _ <;> decide

namespace Sample

/-- A group that is closed but was not opened. -/
def unopened : Text :=
  ascii "x\n#endif\n"

end Sample

/-- The error stands at the name of the directive. -/
theorem located_error_of_run_unopened :
    ∃ e, (({} : Preprocessor).run (ascii "t.c") Sample.unopened).1.error = some e ∧
      e.file = ascii "t.c" ∧ e.pos = ⟨3, 2, 2⟩ ∧ e.pos.Within Sample.unopened.length := by
  have hwithin : (({} : Preprocessor).runWithin 4 Sample.unopened).any (fun r =>
      r.2.1 = .fault { fault := .endifWithoutIf, pos := ⟨3, 2, 2⟩ }) = true := by
    decide +kernel
  obtain ⟨⟨ts, end', T⟩, hr, hend⟩ := (Option.any_eq_true _ _).1 hwithin
  obtain rfl : end' = _ := of_decide_eq_true hend
  obtain ⟨events, hrun⟩ := run_of_runWithin hr (ascii "t.c")
  have herror := congrArg (fun r => r.1.error) hrun
  obtain ⟨-, hfile, hpos⟩ := located_error_of_run herror
  refine ⟨_, herror, hfile, rfl, ?_⟩
  rcases hpos with hpos | ⟨hfault, -⟩
  · exact hpos
  · cases hfault

/-- A definition that the text ends before its name fails without a place. -/
theorem not_located_error_of_run_define :
    (({} : Preprocessor).run (ascii "t.c") (ascii "#define")).1.error =
      some { fault := .expectedIdentifier none, file := ascii "t.c" } := by
  have hwithin : ({} : Preprocessor).runWithin 2 (ascii "#define") =
      some ([], .fault { fault := .expectedIdentifier none }, {}) := by
    decide +kernel
  obtain ⟨events, hrun⟩ := run_of_runWithin hwithin (ascii "t.c")
  rw [hrun]
  rfl

end Preprocessor
end CPreprocessor

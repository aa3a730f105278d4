import CPreprocessor.Proofs.Macro.Composition
import CPreprocessor.Proofs.Macro.Scan
import CPreprocessor.Proofs.Macro.Spacing

/-!
Line ends in expanded text. A replacement has single spaces and no other white space, however the
arguments are laid out, and so has what it is expanded to at any level. Hence expansion makes no
line ends: those of the output stand in the input, in the same order.
-/

namespace CPreprocessor

/-- White space other than a single space of a replacement. -/
def Token.isForeignSpace (t : Token) : Bool :=
  t.isSpace && t != Token.space t.pos

theorem Token.isForeignSpace_of_isLineEnd {t : Token} (h : t.isLineEnd = true) :
    t.isForeignSpace = true := by
  obtain ⟨hs, hn⟩ := Bool.and_eq_true_iff.1 h
  have hne : t ≠ Token.space t.pos := by
    intro ht
    rw [ht] at hn
    cases hn
  simp [isForeignSpace, hs, hne]

theorem Token.eq_space_of_isForeignSpace {t : Token} (h : t.isForeignSpace = false)
    (hs : t.isSpace = true) : t = Token.space t.pos := by
  simpa [isForeignSpace, hs] using h

namespace Substitution

/-- No white space but single spaces. -/
def SingleSpaced (ts : List Token) : Prop :=
  ∀ t ∈ ts, t.isForeignSpace = false

theorem SingleSpaced.filter_eq_nil {ts : List Token} (h : SingleSpaced ts) :
    ts.filter Token.isForeignSpace = [] := by
  rw [List.filter_eq_nil_iff]
  intro t ht
  simp [h t ht]

/-- White space that stands at the place of the token behind it is a single space. -/
theorem WellSpaced.singleSpaced {ts : List Token} (h : WellSpaced ts) : SingleSpaced ts := by
  intro t ht
  cases hs : t.isSpace with
  | false => simp [Token.isForeignSpace, hs]
  | true =>
      obtain ⟨us, vs, rfl⟩ := List.append_of_mem ht
      cases vs with
      | nil =>
          rw [h.last List.getLast?_concat] at hs
          cases hs
      | cons u vs =>
          obtain ⟨-, hchain, -⟩ := List.isChain_append.1 h.spaces
          obtain ⟨-, heq⟩ := (List.isChain_cons_cons.1 hchain).1 hs
          rw [heq]
          simp [Token.isForeignSpace, Token.space]

end Substitution

namespace Expansion

open Substitution (SingleSpaced)

variable {T : Table} {keep : Bool}

theorem singleSpaced_replacement {depth : Nat} {m : Macro} {args : List (List Token)}
    {body : List Token} (h : replacement T keep depth m args = .ok body) : SingleSpaced body := by
  obtain ⟨as, -, hs⟩ := except_bind_eq_ok h
  exact (Substitution.wellSpaced_substitute hs).singleSpaced

/-- A step takes the front off a list: it hands the front out, or reads it as an invocation. -/
def Step.Takes (ts : List Token) : Step (List Token) → Prop
  | .stop _ _ => True
  | .emit t op rest => t :: op ++ rest = ts
  | .call _ _ rest => rest <:+ ts

theorem takes_invocation (m : Macro) (t : Token) (ts : List Token) :
    (invocation m t ts).Takes (t :: ts) := by
  rw [invocation_eq]
  split
  · exact rfl
  · rename_i p ps hd
    have hps : ps <:+ t :: ts := by
      have hsuf := List.dropWhile_suffix (l := ts) Token.isSpace
      rw [hd] at hsuf
      exact (List.suffix_cons p ps).trans (hsuf.trans (List.suffix_cons t ts))
    split
    · unfold argumentsStep
      split
      · trivial
      · rename_i hc
        split
        · trivial
        · exact (Arguments.collect_append hc).1.trans hps
    · exact rfl

theorem takes_step (T : Table) (keep : Bool) (depth : Nat) (ctx : Context) (ts : List Token) :
    (step (fun _ => T) keep depth ctx ts).Takes ts := by
  cases ts with
  | nil => trivial
  | cons t ts =>
      have hcase := step_cases T keep depth ctx t ts
      generalize step (fun _ => T) keep depth ctx (t :: ts) = st at hcase
      cases hcase with
      | pass => exact rfl
      | variadic | tooDeep => trivial
      | operand _ _ ha =>
          have happ := afterDefined_append ts
          rw [ha] at happ
          exact congrArg (t :: ·) happ
      | function => exact takes_invocation _ t ts
      | object => exact List.suffix_cons t ts

namespace Scan

/-- White space of the output that no replacement made stands in the input. An invocation brings
none: its replacement has none, and then neither has what that is expanded to. -/
theorem foreignSpace_output (T : Table) (keep : Bool) (s : Scan) :
    ((s.output T keep).tokens.filter Token.isForeignSpace).Sublist
      (s.input.filter Token.isForeignSpace) := by
  induction s using (wellFounded_leads T keep).induction with
  | _ s ih =>
  have htakes : (s.step T keep).Takes s.input := takes_step T keep s.depth s.context s.input
  cases hs : s.step T keep with
  | stop e rest =>
      rw [output, expandAt_of_stop hs]
      exact List.nil_sublist _
  | emit t op rest =>
      rw [hs] at htakes
      have hinput : t :: op ++ rest = s.input := htakes
      rw [output_of_emit hs, ← hinput]
      simp only [Output.prepend, List.filter_append]
      exact (ih _ (.onward hs)).append_left _
  | call m args rest =>
      rw [hs] at htakes
      have hrest : (rest.filter Token.isForeignSpace).Sublist
          (s.input.filter Token.isForeignSpace) :=
        List.Sublist.filter _ (List.IsSuffix.sublist htakes)
      rw [output_of_call hs]
      cases hb : replacement T keep s.depth m args with
      | error e => exact List.nil_sublist _
      | ok body =>
          have hout := ih _ (.rescan hs hb)
          rw [rescan, (singleSpaced_replacement hb).filter_eq_nil, List.sublist_nil] at hout
          simp only [rescan]
          rcases hx : output T keep ⟨s.depth + 1, s.context.extend m.name, body⟩
            with ⟨out, _ | e⟩
          · rw [hx] at hout
            simp only [Output.prepend, List.filter_append, hout, List.nil_append]
            exact (ih _ (.resume hs hb (by rw [rescan, hx]))).trans hrest
          · rw [hx] at hout
            simp only [hout]
            exact List.nil_sublist _

theorem singleSpaced_output (T : Table) (keep : Bool) {s : Scan} (h : SingleSpaced s.input) :
    SingleSpaced (s.output T keep).tokens := by
  have hout := foreignSpace_output T keep s
  rw [h.filter_eq_nil, List.sublist_nil, List.filter_eq_nil_iff] at hout
  exact fun t ht => Bool.eq_false_iff.2 (hout t ht)

theorem lineEnds_output (T : Table) (keep : Bool) (s : Scan) :
    ((s.output T keep).tokens.filter Token.isLineEnd).Sublist (s.input.filter Token.isLineEnd) := by
  have hsub := (foreignSpace_output T keep s).filter Token.isLineEnd
  have hfilter (ts : List Token) :
      (ts.filter Token.isForeignSpace).filter Token.isLineEnd = ts.filter Token.isLineEnd := by
    rw [List.filter_filter]
    refine List.filter_congr fun t _ => ?_
    cases ht : t.isLineEnd with
    | false => rfl
    | true => exact Token.isForeignSpace_of_isLineEnd ht
  rwa [hfilter, hfilter] at hsub

end Scan

/-- Expansion makes no line ends: those of the output, up to an error if there is one, are line
ends of the input in the same order. What comes out of a macro that is invoked in any scan, be it
of an argument or of a replacement at any level, has single spaces and no other white space. -/
theorem lineEnds_expand (T : Table) :
    (∀ ts, ((expand T ts).tokens.filter Token.isLineEnd).Sublist (ts.filter Token.isLineEnd)) ∧
      ∀ keep (s : Scan) m args rest body, s.step T keep = .call m args rest →
        replacement T keep s.depth m args = .ok body →
        ∀ t ∈ ((s.rescan m body).output T keep).tokens, t.isSpace = true →
          t = Token.space t.pos := by
  refine ⟨fun ts => Scan.lineEnds_output T false (.start ts), ?_⟩
  intro keep s m args rest body _ hb t ht hs
  have hout : SingleSpaced ((s.rescan m body).output T keep).tokens :=
    Scan.singleSpaced_output T keep (singleSpaced_replacement hb)
  exact Token.eq_space_of_isForeignSpace (hout t ht) hs

namespace Sample

def lineEnd : Token :=
  { kind := .whitespace, text := [Byte.lineFeed], length := 1, newline := true }

/-- A macro that invokes another one on its argument. -/
def outer : Macro :=
  { name := ascii "outer", functionLike := true, params := [ascii "x"],
    body := [word "x", Token.space {}, word "inner", punct "(", word "x", punct ")"] }

def inner : Macro :=
  { name := ascii "inner", functionLike := true, params := [ascii "y"], body := [word "y"] }

def nested : Table :=
  ⟨[outer, inner]⟩

/-- An argument on two lines. -/
def spanning : List Token :=
  [word "a", lineEnd, word "b"]

def spaced : List Token :=
  [word "a", Token.space {}, word "b"]

/-- The argument on lines of its own, and a line end behind the closing parenthesis. -/
def given : List Token :=
  lineEnd :: spanning ++ [lineEnd, punct ")", lineEnd]

def invoking : Scan :=
  .start (word "outer" :: punct "(" :: given)

end Sample

open Sample in
/-- The argument comes out twice, once through another macro, each time on one line. -/
theorem lineEnds_expand_spanning :
    (∃ body, invoking.step nested false = .call outer [spanning] [lineEnd] ∧
      replacement nested false 0 outer [spanning] = .ok body ∧
      ∀ t ∈ ((invoking.rescan outer body).output nested false).tokens,
        t.isSpace = true → t = Token.space t.pos) ∧
    expand nested invoking.input = ⟨spaced ++ Token.space {} :: spaced ++ [lineEnd], none⟩ ∧
    [lineEnd].Sublist (invoking.input.filter Token.isLineEnd) := by
  have hcollect : Arguments.collect (word "outer") 0 given =
      (.ok [lineEnd :: spanning ++ [lineEnd]], [lineEnd]) :=
    Prod.ext (except_eq_ok_of_toOption (by decide +kernel)) (by decide +kernel)
  have hstep : invoking.step nested false = .call outer [spanning] [lineEnd] := by
    have hinvoke : invoking.step nested false =
        invocation outer (word "outer") (punct "(" :: given) := rfl
    have hlist : (punct "(" :: given).dropWhile Token.isSpace = punct "(" :: given := rfl
    rw [hinvoke, invocation_eq, hlist]
    simp only
    rw [if_pos (by decide), argumentsStep, hcollect]
    rfl
  have hwithin : (argumentsWithin (expandWithin nested false 9 1 []) [spanning]).bind
      Except.toOption = some [⟨spanning, spanning⟩] := by
    decide +kernel
  obtain ⟨as, has, hargs⟩ := Option.bind_eq_some_iff.1 hwithin
  obtain rfl := except_eq_ok_of_toOption hargs
  have hbody :
      (Substitution.substitute outer [⟨spanning, spanning⟩]).toOption.isSome = true := by
    decide +kernel
  obtain ⟨body, hbody⟩ := Option.isSome_iff_exists.1 hbody
  have hreplace : replacement nested false 0 outer [spanning] = .ok body :=
    (replacement_of_within has).trans (except_eq_ok_of_toOption hbody)
  have hout : expand nested invoking.input =
      ⟨spaced ++ Token.space {} :: spaced ++ [lineEnd], none⟩ :=
    expandAt_of_within (n := 12) (by decide +kernel)
  obtain ⟨hlines, hinvoked⟩ := lineEnds_expand nested
  have hsub := hlines invoking.input
  rw [hout] at hsub
  exact ⟨⟨body, hstep, hreplace, hinvoked false _ _ _ _ body hstep hreplace⟩, hout, hsub⟩

end Expansion
end CPreprocessor

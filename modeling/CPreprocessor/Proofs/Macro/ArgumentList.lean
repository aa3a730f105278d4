import CPreprocessor.Proofs.Macro.Failure
import CPreprocessor.Proofs.Macro.Placemarker
import Mathlib.Data.List.Nodup

/-!
Argument lists. Behind the opening parenthesis of an invocation stand arguments with commas
between them, each with balanced parentheses and no comma outside of them. They are read off up
to the parenthesis that closes the list, whatever follows; if there is none, the invocation
fails. The arguments are then given to the parameters in order, the last parameter of a variadic
macro taking all that are left, and only as many of them as the macro takes are accepted.
-/

namespace CPreprocessor

namespace TokenStream

variable {ρ : Type} [TokenStream ρ]

theorem next_of_content {r : ρ} {t : Token} {ts : List Token} {e : End}
    (h : content r = (t :: ts, e)) : ∃ s, next r = .token t s ∧ content s = (ts, e) := by
  cases hn : next r with
  | stop f s =>
      rw [(content_of_stop hn).1] at h
      cases h
  | token u s =>
      rw [content_of_token hn] at h
      cases h
      exact ⟨s, rfl, rfl⟩

theorem next_of_content_nil {r : ρ} {e : End} (h : content r = ([], e)) :
    ∃ s, next r = .stop e s := by
  cases hn : next r with
  | stop f s =>
      rw [(content_of_stop hn).1] at h
      cases h
      exact ⟨s, rfl⟩
  | token u s =>
      rw [content_of_token hn] at h
      cases h

/-- White space is taken up to the first other token. -/
theorem takeSpace_of_content {r : ρ} {ws us : List Token} {u : Token} {e : End}
    (hws : ∀ w ∈ ws, w.isSpace = true) (hu : u.isSpace = false)
    (h : content r = (ws ++ u :: us, e)) :
    ∃ s, takeSpace true r = (⟨ws, none⟩, s) ∧ content s = (u :: us, e) := by
  induction ws generalizing r with
  | nil =>
      obtain ⟨s, hn, hs⟩ := next_of_content h
      refine ⟨unread [u] s, ?_, ?_⟩
      · rw [takeSpace_of_token hn, if_neg (by simp [hu])]
      · rw [content_unread, hs]
        rfl
  | cons w ws ih =>
      obtain ⟨hw, hws⟩ := List.forall_mem_cons.1 hws
      obtain ⟨s, hn, hs⟩ := next_of_content h
      obtain ⟨s', htake, hs'⟩ := ih hws hs
      refine ⟨s', ?_, hs'⟩
      rw [takeSpace_of_token hn, if_pos (by simp [hw]), htake]
      rfl

end TokenStream

namespace Arguments

open TokenStream (next content next_of_content next_of_content_nil)

/-- The number of parentheses that tokens open. -/
def openings (ts : List Token) : Nat :=
  ts.countP (Token.isPunct (ascii "("))

/-- The number of parentheses that tokens close. -/
def closings (ts : List Token) : Nat :=
  ts.countP (Token.isPunct (ascii ")"))

/-- The tokens close no parenthesis that is not open; `depth` are open in front of them. -/
def Confined (depth : Nat) (ts : List Token) : Prop :=
  ∀ p, p <+: ts → closings p ≤ depth + openings p

/-- The tokens close the parentheses that they open and `depth` others, and no comma stands
outside of them. -/
structure Enclosed (depth : Nat) (ts : List Token) : Prop where
  confined : Confined depth ts
  balanced : closings ts = depth + openings ts
  commas {before after : List Token} {c : Token} : ts = before ++ c :: after →
    c.isPunct (ascii ",") = true → closings before < depth + openings before

/-- The number of parentheses that are open behind a token. -/
def depthAfter (depth : Nat) (t : Token) : Nat :=
  depth + openings [t] - closings [t]

section Parentheses

variable {depth : Nat} {t : Token} {ts : List Token}

theorem openings_cons (t : Token) (ts : List Token) :
    openings (t :: ts) = openings [t] + openings ts := by
  rw [openings, openings, openings, ← List.countP_append]
  rfl

theorem closings_cons (t : Token) (ts : List Token) :
    closings (t :: ts) = closings [t] + closings ts := by
  rw [closings, closings, closings, ← List.countP_append]
  rfl

theorem confined_nil (depth : Nat) : Confined depth [] := by
  intro p hp
  rw [List.prefix_nil.1 hp]
  exact Nat.zero_le _

theorem confined_cons : Confined depth (t :: ts) ↔
    closings [t] ≤ depth + openings [t] ∧ Confined (depthAfter depth t) ts := by
  constructor
  · intro h
    have ht := h [t] (List.prefix_cons_inj t |>.2 List.nil_prefix)
    refine ⟨ht, ?_⟩
    intro p hp
    have := h (t :: p) (List.prefix_cons_inj t |>.2 hp)
    rw [openings_cons, closings_cons] at this
    rw [depthAfter]
    omega
  · rintro ⟨ht, h⟩ p hp
    cases List.prefix_cons_iff.1 hp with
    | inl hnil =>
        rw [hnil]
        exact Nat.zero_le _
    | inr hcons =>
        obtain ⟨q, rfl, hq⟩ := hcons
        have := h q hq
        rw [openings_cons, closings_cons]
        rw [depthAfter] at this
        omega

theorem enclosed_nil : Enclosed depth [] ↔ depth = 0 := by
  constructor
  · intro h
    exact h.balanced.symm
  · rintro rfl
    exact ⟨confined_nil 0, rfl, fun h => by simp at h⟩

theorem enclosed_cons : Enclosed depth (t :: ts) ↔
    closings [t] ≤ depth + openings [t] ∧ (t.isPunct (ascii ",") = true → 0 < depth) ∧
      Enclosed (depthAfter depth t) ts := by
  constructor
  · intro h
    obtain ⟨ht, hconfined⟩ := confined_cons.1 h.confined
    refine ⟨ht, fun hc => h.commas (List.nil_append _).symm hc, hconfined, ?_, ?_⟩
    · have := h.balanced
      rw [openings_cons, closings_cons] at this
      rw [depthAfter]
      omega
    · intro before after c hts hc
      have happ : t :: ts = (t :: before) ++ c :: after := congrArg (t :: ·) hts
      have := h.commas happ hc
      rw [openings_cons, closings_cons] at this
      rw [depthAfter]
      omega
  · rintro ⟨ht, hcomma, h⟩
    refine ⟨confined_cons.2 ⟨ht, h.confined⟩, ?_, ?_⟩
    · have := h.balanced
      rw [depthAfter] at this
      rw [openings_cons, closings_cons]
      omega
    · intro before after c hts hc
      cases before with
      | nil =>
          cases hts
          exact hcomma hc
      | cons u before =>
          cases hts
          have := h.commas rfl hc
          rw [depthAfter] at this
          rw [openings_cons, closings_cons]
          omega

instance decidableConfined : (depth : Nat) → (ts : List Token) → Decidable (Confined depth ts)
  | depth, [] => .isTrue (confined_nil depth)
  | depth, t :: ts =>
    have := decidableConfined (depthAfter depth t) ts
    decidable_of_iff _ confined_cons.symm

instance decidableEnclosed : (depth : Nat) → (ts : List Token) → Decidable (Enclosed depth ts)
  | _, [] => decidable_of_iff _ enclosed_nil.symm
  | depth, t :: ts =>
    have := decidableEnclosed (depthAfter depth t) ts
    decidable_of_iff _ enclosed_cons.symm

end Parentheses

section Reading

variable {ρ : Type} [TokenStream ρ] {r : ρ} {depth : Nat} {t : Token}
    {ts us : List Token} {e : End}

/-- A token that does not close the list is added to the arguments, or it begins a new one. -/
theorem collect_of_content (name : Token) (hr : content r = (t :: ts, e))
    (ht : closings [t] ≤ depth + openings [t]) :
    ∃ s, content s = (ts, e) ∧ collect name depth r =
      ((collect name (depthAfter depth t) s).1.map
        (if t.isPunct (ascii ",") && depth = 0 then ([] :: ·) else consFirst t),
        (collect name (depthAfter depth t) s).2) := by
  obtain ⟨s, hn, hs⟩ := next_of_content hr
  refine ⟨s, hs, ?_⟩
  rw [collect_of_token hn]
  by_cases hopen : t.isPunct (ascii "(") = true
  · have hclose : t.isPunct (ascii ")") = false := Token.isPunct_eq_false hopen (by decide)
    have hcomma : t.isPunct (ascii ",") = false := Token.isPunct_eq_false hopen (by decide)
    simp [depthAfter, openings, closings, hopen, hclose, hcomma]
  · by_cases hclose : t.isPunct (ascii ")") = true
    · have hcomma : t.isPunct (ascii ",") = false := Token.isPunct_eq_false hclose (by decide)
      have hdepth : depth ≠ 0 := by
        rintro rfl
        simp [openings, closings, hopen, hclose] at ht
      simp [depthAfter, openings, closings, hopen, hclose, hcomma, hdepth]
    · simp only [depthAfter, openings, closings, hopen, hclose, List.countP_singleton]
      simp only [Bool.false_eq_true, if_false, Nat.add_zero, Nat.sub_zero]
      split <;> rfl

theorem foldr_consFirst (a b : List Token) (as : List (List Token)) :
    a.foldr consFirst (b :: as) = (a ++ b) :: as := by
  induction a with
  | nil => rfl
  | cons t a ih => rw [List.foldr_cons, ih]; rfl

/-- Tokens that are enclosed are part of the first argument, and reading goes on behind them. -/
theorem collect_of_enclosed (name : Token) (ha : Enclosed depth ts)
    (hr : content r = (ts ++ us, e)) :
    ∃ s, content s = (us, e) ∧ collect name depth r =
      ((collect name 0 s).1.map (ts.foldr consFirst ·), (collect name 0 s).2) := by
  induction ts generalizing depth r with
  | nil =>
      cases enclosed_nil.1 ha
      refine ⟨r, hr, ?_⟩
      cases collect name 0 r with
      | mk x s => cases x <;> rfl
  | cons t ts ih =>
      obtain ⟨ht, hcomma, hts⟩ := enclosed_cons.1 ha
      obtain ⟨s, hs, hstep⟩ := collect_of_content name hr ht
      obtain ⟨s', hs', hrest⟩ := ih hts hs
      refine ⟨s', hs', ?_⟩
      have hnot : ¬(t.isPunct (ascii ",") && decide (depth = 0)) = true := by
        rw [Bool.and_eq_true, decide_eq_true_eq]
        rintro ⟨hc, hzero⟩
        have := hcomma hc
        omega
      rw [hstep, if_neg hnot, hrest, except_map_map]
      rfl

/-- Arguments with commas between them, the first one and each other behind its comma. -/
def listed (a : List Token) (more : List (Token × List Token)) : List Token :=
  a ++ more.flatMap fun x => x.1 :: x.2

/-- Arguments in parentheses are read, and what stands behind them is left. -/
theorem collect_of_listed (name : Token) {a rest : List Token} {more : List (Token × List Token)}
    {close : Token} (ha : Enclosed 0 a)
    (hmore : ∀ x ∈ more, x.1.isPunct (ascii ",") = true ∧ Enclosed 0 x.2)
    (hclose : close.isPunct (ascii ")") = true)
    (hr : content r = (listed a more ++ close :: rest, e)) :
    ∃ s, collect name 0 r = (.ok (a :: more.map Prod.snd), s) ∧ content s = (rest, e) := by
  induction more generalizing a r with
  | nil =>
      rw [listed, List.flatMap_nil, List.append_nil] at hr
      obtain ⟨s, hs, hcollect⟩ := collect_of_enclosed name ha hr
      obtain ⟨s', hn, hs'⟩ := next_of_content hs
      have hopen : close.isPunct (ascii "(") = false := Token.isPunct_eq_false hclose (by decide)
      refine ⟨s', ?_, hs'⟩
      rw [hcollect, collect_of_token hn, hopen, if_neg (by simp), if_pos hclose, if_pos rfl]
      simp only [Except.map, foldr_consFirst, List.append_nil, List.map_nil]
  | cons x more ih =>
      obtain ⟨hx, hmore⟩ := List.forall_mem_cons.1 hmore
      rw [listed, List.flatMap_cons, List.append_assoc] at hr
      obtain ⟨s, hs, hcollect⟩ := collect_of_enclosed name ha hr
      have hlist : content s = (x.1 :: (listed x.2 more ++ close :: rest), e) := hs
      obtain ⟨s', hn, hs'⟩ := next_of_content hlist
      have hopen : x.1.isPunct (ascii "(") = false := Token.isPunct_eq_false hx.1 (by decide)
      have hnot : x.1.isPunct (ascii ")") = false := Token.isPunct_eq_false hx.1 (by decide)
      obtain ⟨s'', hrest, hs''⟩ := ih hx.2 hmore hs'
      refine ⟨s'', ?_, hs''⟩
      rw [hcollect, collect_of_token hn, hopen, hnot, if_neg (by simp), if_neg (by simp),
        if_pos (by simp [hx.1]), hrest]
      simp only [Except.map, foldr_consFirst, List.append_nil, List.map_cons]

/-- Where no parenthesis closes the list, reading ends with the input: in an error if there is
one, and else for want of the parenthesis. -/
theorem collect_of_confined (name : Token) (h : Confined depth ts) (hr : content r = (ts, e)) :
    (collect name depth r).1 = .error
      (e.error?.getD { fault := .unterminatedArguments name.text, pos := name.pos }) := by
  induction ts generalizing depth r with
  | nil =>
      obtain ⟨s, hn⟩ := next_of_content_nil hr
      rw [collect_of_stop hn]
  | cons t ts ih =>
      obtain ⟨ht, hts⟩ := confined_cons.1 h
      obtain ⟨s, hs, hstep⟩ := collect_of_content name hr ht
      rw [hstep, ih hts hs]
      rfl

end Reading

section Assignment

variable {m : Macro} {name : Token} {raw args : List (List Token)}

theorem joined_eq (pos : Pos) (as : List (List Token)) :
    joined pos as = List.intercalate [comma pos] as := by
  fun_induction joined pos as with
  | case1 => rfl
  | case2 a => simp
  | case3 a as hne ih =>
      cases as with
      | nil => exact absurd rfl hne
      | cons b as => rw [ih, List.intercalate_cons_cons, List.append_assoc, List.singleton_append]

/-- A variadic macro takes its named arguments and any number of others, which become one. -/
theorem assign_variadic_iff {k : Nat} (hv : m.isVariadic = true) (hk : m.params.length = k + 1) :
    assign m name raw = .ok args ↔
      k ≤ raw.length ∧
      args = raw.take k ++ [List.intercalate [comma name.pos] (raw.drop k)] := by
  simp only [assign, hk, hv, Nat.add_one_ne_zero, if_false, if_true, Nat.add_sub_cancel, joined_eq]
  split
  · rename_i hlt
    exact iff_of_false (by simp) fun h => absurd h.1 (Nat.not_le.2 hlt)
  · rename_i hle
    rw [Except.ok.injEq]
    exact ⟨fun h => ⟨Nat.le_of_not_lt hle, h.symm⟩, fun h => h.2.symm⟩

/-- Any other macro takes one argument for each parameter. -/
theorem assign_fixed_iff (hv : m.isVariadic = false) (hp : m.params ≠ []) :
    assign m name raw = .ok args ↔ raw.length = m.params.length ∧ args = raw := by
  have hpos : m.params.length ≠ 0 := fun h => hp (List.length_eq_zero_iff.1 h)
  simp only [assign, hv, if_neg hpos, Bool.false_eq_true, if_false]
  split
  · rename_i hlt
    exact iff_of_false (by simp) fun h => absurd h.1 (Nat.ne_of_lt hlt)
  · rename_i hle
    split
    · rename_i hlt
      exact iff_of_false (by simp) fun h => absurd h.1.symm (Nat.ne_of_lt hlt)
    · rename_i hge
      rw [Except.ok.injEq]
      exact ⟨fun h => ⟨by omega, h.symm⟩, fun h => h.2.symm⟩

/-- A macro without parameters takes the empty list, which reads as one empty argument. -/
theorem assign_empty_iff (hp : m.params = []) :
    assign m name raw = .ok args ↔ raw = [[]] ∧ args = [] := by
  simp only [assign, hp, List.length_nil, if_true]
  split
  · rename_i hraw
    rw [Except.ok.injEq]
    exact ⟨fun h => ⟨hraw, h.symm⟩, fun h => h.2.symm⟩
  · rename_i hraw
    exact iff_of_false (by simp) fun h => absurd h.1 hraw

/-- A parameter has the argument at its place. -/
theorem argument?_of_param (hnodup : m.params.Nodup) {i : Nat} {p : Text}
    (hp : m.params[i]? = some p) (bound : List Argument) {t : Token} (ht : t.isIdent p = true) :
    Substitution.argument? (m.params.zip bound) t = bound[i]? := by
  obtain ⟨hk, rfl⟩ : t.kind = .identifier ∧ t.text = p := by
    simpa [Token.isIdent] using ht
  obtain ⟨hlt, hget⟩ := List.getElem?_eq_some_iff.1 hp
  have hindex : m.params.idxOf? t.text = some i := by
    refine List.idxOf?_eq_some_iff.2 ⟨hlt, hget, ?_⟩
    intro j hj heq
    exact Nat.ne_of_lt hj ((List.Nodup.getElem_inj_iff hnodup).1 (heq.trans hget.symm))
  rw [Substitution.argument?, if_pos hk, ← Indexed.argumentNamed_eq,
    Indexed.argumentNamed, hindex, Option.bind_some]

end Assignment

end Arguments

namespace Expansion

open TokenStream (content)

variable {ρ : Type} [TokenStream ρ] {r : ρ} {ts ws : List Token} {p : Token} {e : End}

/-- The step that an invocation takes when its arguments have been read. -/
def assignedStep (m : Macro) (name : Token) (raw : List (List Token)) (s : ρ) : Step ρ :=
  match Arguments.assign m name raw with
  | .error e => .stop (.fault e) s
  | .ok args => .call m args s

/-- In front of an opening parenthesis a function-like name is invoked with the arguments read
behind it, without the white space around them. -/
theorem invocation_of_content (m : Macro) (name : Token) (hws : ∀ w ∈ ws, w.isSpace = true)
    (hp : p.isPunct (ascii "(") = true) (hr : content r = (ws ++ p :: ts, e)) :
    ∃ s, content s = (ts, e) ∧ invocation m name r =
      match Arguments.collect name 0 s with
      | (.error e, s) => .stop (.fault e) s
      | (.ok raw, s) => assignedStep m name (raw.map Token.trim) s := by
  obtain ⟨s, hspace, hs⟩ :=
    TokenStream.takeSpace_of_content hws (Token.isSpace_of_isPunct hp) hr
  obtain ⟨s', hn, hs'⟩ := TokenStream.next_of_content hs
  refine ⟨s', hs', ?_⟩
  rw [invocation, hspace]
  simp only [TokenStream.takePunct, TokenStream.takeIf, hn, hp, if_true]
  cases Arguments.collect name 0 s' with
  | mk x q =>
      cases x with
      | error e => rfl
      | ok raw => rfl

end Expansion

namespace Arguments

open TokenStream (content)

/-- How the arguments of an invocation are read and given to the parameters. Arguments with
balanced parentheses and commas between them are read off up to the parenthesis behind them, and
without the white space around them the macro is invoked with them. If no parenthesis closes the
list, that is an error of invocation. A variadic macro with `k` named parameters accepts `k`
arguments or more, the ones behind the first `k` joined by commas; any other accepts one for each
parameter, or the empty list if there is none. Each parameter gets the argument at its place, as
written. -/
theorem collect_and_assign (name : Token) (m : Macro) :
    (∀ {ρ : Type} [TokenStream ρ] (r : ρ) (a rest : List Token)
      (more : List (Token × List Token)) (close : Token) (e : End), Enclosed 0 a →
      (∀ x ∈ more, x.1.isPunct (ascii ",") = true ∧ Enclosed 0 x.2) →
      close.isPunct (ascii ")") = true →
      (content r = (listed a more ++ close :: rest, e) →
        ∃ s, collect name 0 r = (.ok (a :: more.map Prod.snd), s) ∧ content s = (rest, e)) ∧
      ∀ ws p, (∀ w ∈ ws, w.isSpace = true) → p.isPunct (ascii "(") = true →
        content r = (ws ++ p :: (listed a more ++ close :: rest), e) →
        ∃ s, content s = (rest, e) ∧ Expansion.invocation m name r =
          Expansion.assignedStep m name ((a :: more.map Prod.snd).map Token.trim) s) ∧
    (∀ {ρ : Type} [TokenStream ρ] (r : ρ) (ts : List Token), Confined 0 ts →
      content r = (ts, .eof) → ∃ e, (collect name 0 r).1 = .error e ∧ e.kind = .invocation ∧
        e = { fault := .unterminatedArguments name.text, pos := name.pos }) ∧
    (∀ raw e, assign m name raw = .error e → e.kind = .invocation) ∧
    (m.isVariadic = true → ∀ k, m.params.length = k + 1 → ∀ raw args,
      assign m name raw = .ok args ↔ k ≤ raw.length ∧
        args = raw.take k ++ [List.intercalate [comma name.pos] (raw.drop k)]) ∧
    (m.isVariadic = false → m.params ≠ [] → ∀ raw args,
      assign m name raw = .ok args ↔ raw.length = m.params.length ∧ args = raw) ∧
    (m.params = [] → ∀ raw args, assign m name raw = .ok args ↔ raw = [[]] ∧ args = []) ∧
    (m.params.Nodup → ∀ expand args bound, Expansion.expandArguments expand args = .ok bound →
      ∀ (i : Nat) p t, m.params[i]? = some p → t.isIdent p = true →
        (Substitution.argument? (m.params.zip bound) t).map Argument.written = args[i]?) := by
  refine ⟨?_, ?_, ?_, ?_, ?_, ?_, ?_⟩
  · intro ρ _ r a rest more close e ha hmore hclose
    refine ⟨fun hr => collect_of_listed name ha hmore hclose hr, ?_⟩
    intro ws p hws hp hr
    obtain ⟨s, hs, hstep⟩ := Expansion.invocation_of_content m name hws hp hr
    obtain ⟨s', hcollect, hs'⟩ := collect_of_listed name ha hmore hclose hs
    exact ⟨s', hs', by rw [hstep, hcollect]⟩
  · intro ρ _ r ts hts hr
    exact ⟨_, collect_of_confined name hts hr, rfl, rfl⟩
  · intro raw e he
    exact failsAs_assign m name raw e he
  · intro hv k hk raw args
    exact assign_variadic_iff hv hk
  · intro hv hp raw args
    exact assign_fixed_iff hv hp
  · intro hp raw args
    exact assign_empty_iff hp
  · intro hnodup expand args bound hbound i p t hp ht
    rw [argument?_of_param hnodup hp bound ht, ← List.getElem?_map,
      Placemarker.written_of_expandArguments hbound]

namespace Sample

def number (s : String) : Token :=
  { kind := .number, text := ascii s }

def punct (s : String) : Token :=
  { kind := .punctuator, text := ascii s }

def name : Token :=
  { kind := .identifier, text := ascii "f" }

def blank : Token :=
  Token.space {}

/-- A macro with one named parameter and variable arguments. -/
def variadic : Macro :=
  { name := ascii "f", functionLike := true, params := [ascii "x", Vocabulary.variadicName] }

/-- An argument with a comma in parentheses. -/
def pair : List Token :=
  [blank, punct "(", number "2", punct ",", number "3", punct ")", blank]

/-- Three arguments, the last one empty, and the parenthesis behind them. -/
def given : List Token :=
  listed [number "1"] [(punct ",", pair), (punct ",", [])] ++ punct ")" :: [number "4"]

/-- The two arguments that are left for the variadic name, without the white space around the
first of them, with a comma behind it. -/
def others : List Token :=
  [punct "(", number "2", punct ",", number "3", punct ")", punct ","]

/-- What the two parameters get, nothing being expanded. -/
def bound : List Argument :=
  [⟨[number "1"], [number "1"]⟩, ⟨others, others⟩]

end Sample

open Sample in
theorem collect_and_assign_variadic :
    (∃ s, collect name 0 given = (.ok [[number "1"], pair, []], s) ∧
        content s = ([number "4"], .eof)) ∧
      (∃ s, content s = ([number "4"], .eof) ∧
        Expansion.invocation variadic name (blank :: punct "(" :: given) =
          .call variadic [[number "1"], others] s) ∧
      (∃ e, (collect name 0 (punct "(" :: given.dropLast)).1 = .error e ∧
        e.kind = .invocation) ∧
      (Substitution.argument? (variadic.params.zip bound)
        { kind := .identifier, text := Vocabulary.variadicName }).map Argument.written =
          some others := by
  obtain ⟨hread, hunclosed, -, hassign, -, -, hbind⟩ := collect_and_assign name variadic
  obtain ⟨hcollect, hinvoke⟩ := hread given [number "1"] [number "4"]
    [(punct ",", pair), (punct ",", [])] (punct ")") .eof (by decide) (by decide) (by decide)
  have hargs : assign variadic name [[number "1"], Token.trim pair, []] =
      .ok [[number "1"], others] :=
    (hassign (by decide) 1 (by decide) _ _).2 (by decide)
  obtain ⟨s, hs, hstep⟩ := (hread (blank :: punct "(" :: given) [number "1"] [number "4"]
    [(punct ",", pair), (punct ",", [])] (punct ")") .eof (by decide) (by decide) (by decide)).2
    [blank] (punct "(") (by decide) (by decide) rfl
  obtain ⟨e, he, hk, -⟩ := hunclosed (punct "(" :: given.dropLast) _ (by decide) rfl
  refine ⟨hcollect rfl, ⟨s, hs, ?_⟩, ⟨e, he, hk⟩, ?_⟩
  · rw [hstep, Expansion.assignedStep]
    simp only [List.map_cons, List.map_nil]
    rw [show Token.trim [number "1"] = [number "1"] from rfl, show Token.trim [] = [] from rfl,
      hargs]
  · exact hbind (by decide) (fun ts => ⟨ts, none⟩) [[number "1"], others] bound rfl 1 _ _ rfl
      (by decide)

end Arguments
end CPreprocessor

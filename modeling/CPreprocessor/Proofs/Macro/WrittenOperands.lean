import CPreprocessor.Proofs.Macro.Placemarker

/-!
Arguments that are used as they are written. If every parameter in the body of a macro is an
operand of `#` or `##`, substitution never looks at the expanded arguments, so the replacement is
the same for all macro tables. The arguments are expanded all the same, and if that fails so does
the invocation.
-/

namespace CPreprocessor

open Substitution (Bindings Element argument? stringized? elements substitute beforePaste)

/-- Every parameter in the body comes directly behind `#` or `##` or in front of `##`, white space
aside. -/
def Macro.OnlyOperands (m : Macro) : Prop :=
  ∀ i (_ : i < m.body.length), m.body[i].kind = .identifier → m.body[i].text ∈ m.params →
    (Token.solid (m.body.take i)).getLast?.any (fun t => t.isHash || t.isPaste) = true ∨
      (Token.solid (m.body.drop (i + 1))).head?.any Token.isPaste = true

instance (m : Macro) : Decidable m.OnlyOperands :=
  inferInstanceAs (Decidable (∀ i (_ : i < m.body.length), m.body[i].kind = .identifier →
    m.body[i].text ∈ m.params →
      (Token.solid (m.body.take i)).getLast?.any (fun t => t.isHash || t.isPaste) = true ∨
        (Token.solid (m.body.drop (i + 1))).head?.any Token.isPaste = true))

theorem Macro.OnlyOperands.of_append {m : Macro} (h : m.OnlyOperands) {front after : List Token}
    {t : Token} (hbody : m.body = front ++ t :: after) (hk : t.kind = .identifier)
    (hp : t.text ∈ m.params) :
    (Token.solid front).getLast?.any (fun t => t.isHash || t.isPaste) = true ∨
      (Token.solid after).head?.any Token.isPaste = true := by
  have hlt : front.length < m.body.length := by simp [hbody]
  have ht : m.body[front.length] = t := by simp [hbody]
  have hop := h front.length hlt (by rw [ht]; exact hk) (by rw [ht]; exact hp)
  simpa [hbody] using hop

/-- An argument that stays as it is written. -/
def Argument.asWritten (a : List Token) : Argument :=
  ⟨a, a⟩

theorem Token.isHash_of_isPaste {t : Token} (h : t.isPaste = true) : t.isHash = false := by
  rw [isPaste, Bool.or_eq_true] at h
  rcases h with h | h <;>
    rw [isHash, isPunct_eq_false h (by decide), isPunct_eq_false h (by decide)] <;> rfl

namespace Substitution

/-- The arguments without their expansion. -/
def unexpanded (bs : Bindings) : Bindings :=
  bs.map fun b => (b.1, .asWritten b.2.written)

theorem unexpanded_zip (names : List Text) (args : List Argument) :
    unexpanded (names.zip args) = names.zip (args.map fun a => .asWritten a.written) := by
  rw [unexpanded, List.zip_map_right]
  rfl

theorem argument?_unexpanded (bs : Bindings) (t : Token) :
    argument? (unexpanded bs) t = (argument? bs t).map fun a => .asWritten a.written := by
  unfold argument?
  split
  · induction bs with
    | nil => rfl
    | cons b bs ih =>
        obtain ⟨name, a⟩ := b
        rw [unexpanded, List.map_cons, List.lookup_cons, List.lookup_cons]
        cases t.text == name with
        | true => rfl
        | false => exact ih
  · rfl

theorem stringized?_unexpanded (m : Macro) (bs : Bindings) (t : Token) (ts : List Token) :
    stringized? m (unexpanded bs) t ts =
      (stringized? m bs t ts).map fun x => (.asWritten x.1.written, x.2) := by
  unfold stringized?
  split
  · split
    · rw [argument?_unexpanded, Option.map_map, Option.map_map]
      rfl
    · rfl
  · rfl

theorem kind_of_argument? {bs : Bindings} {t : Token} {a : Argument}
    (h : argument? bs t = some a) : t.kind = .identifier := by
  unfold argument? at h
  split at h
  · assumption
  · cases h

/-- What a `#` makes a string of is a name, and the body goes on behind it. -/
theorem exists_of_stringized? {m : Macro} {bs : Bindings} {t : Token} {ts rest : List Token}
    {a : Argument} (h : stringized? m bs t ts = some (a, rest)) :
    ∃ us p, ts = us ++ p :: rest ∧ p.kind = .identifier := by
  unfold stringized? at h
  split at h
  · split at h
    · rename_i p us hd
      obtain ⟨b, hb, heq⟩ := Option.map_eq_some_iff.1 h
      cases heq
      refine ⟨ts.takeWhile Token.isSpace, p, ?_, ?_⟩
      · rw [← hd, List.takeWhile_append_dropWhile]
      · exact kind_of_argument? hb
    · cases h
  · cases h

/-- A `#` that makes no string has no parameter next to it. -/
theorem argument?_of_stringized?_eq_none {m : Macro} (hf : m.functionLike = true) {bs : Bindings}
    {t : Token} {ts : List Token} (hh : t.isHash = true) (h : stringized? m bs t ts = none)
    {p : Token} (hp : (Token.solid ts).head? = some p) : argument? bs p = none := by
  rw [stringized?, if_pos (by simp [hf, hh])] at h
  split at h
  · rename_i q us hd
    rw [(Placemarker.solid_of_dropWhile hd).2] at hp
    cases hp
    simpa using h
  · rename_i hd
    rw [Placemarker.solid_of_dropWhile_nil hd] at hp
    cases hp

/-- A body cut where its elements have been taken up to. `pasted` tells whether the front ends with
the joining operator, white space aside; if it ends with a `#`, that made no string, so the next
token is no parameter. -/
structure Cut (m : Macro) (bs : Bindings) (pasted : Bool) (front ts : List Token) : Prop where
  body_eq : m.body = front ++ ts
  pasted_eq : (Token.solid front).getLast?.any Token.isPaste = pasted
  hash : (Token.solid front).getLast?.any Token.isHash = true → ∀ p,
    (Token.solid ts).head? = some p → argument? bs p = none

namespace Cut

variable {m : Macro} {bs : Bindings} {pasted : Bool} {front ts : List Token} {t : Token}

theorem space (h : Cut m bs pasted front (t :: ts)) (ht : t.isSpace = true) :
    Cut m bs pasted (front ++ [t]) ts := by
  have hfront : Token.solid (front ++ [t]) = Token.solid front := by
    rw [Token.solid_append, Token.solid_cons_space ht]
    exact List.append_nil _
  refine ⟨by rw [h.body_eq]; simp, by rw [hfront]; exact h.pasted_eq, fun hh p hp => ?_⟩
  rw [hfront] at hh
  exact h.hash hh p (by rw [Token.solid_cons_space ht]; exact hp)

/-- Behind a token that is not white space the cut depends on that token only. -/
theorem behind (bs : Bindings) {before rest : List Token} (hbody : m.body = before ++ t :: rest)
    (ht : t.isSpace = false)
    (hh : t.isHash = true → ∀ p, (Token.solid rest).head? = some p → argument? bs p = none) :
    Cut m bs t.isPaste (before ++ [t]) rest := by
  have hlast : (Token.solid (before ++ [t])).getLast? = some t := by
    rw [Token.solid_append, Token.solid_cons ht]
    exact List.getLast?_concat
  refine ⟨by rw [hbody]; simp, by rw [hlast]; rfl, fun h p hp => hh ?_ p hp⟩
  rwa [hlast] at h

/-- An argument that takes the place of a parameter is one that is joined. -/
theorem joined (h : Cut m bs pasted front (t :: ts)) (hm : m.OnlyOperands)
    (hbs : ∀ b ∈ bs, b.1 ∈ m.params) (ht : t.isSpace = false) {a : Argument}
    (ha : argument? bs t = some a) : (pasted || beforePaste ts) = true := by
  have hk : t.kind = .identifier := kind_of_argument? ha
  have hp : t.text ∈ m.params := hbs _ (Placemarker.mem_of_argument? ha)
  rw [Placemarker.beforePaste_eq, Bool.or_eq_true]
  rcases hm.of_append h.body_eq hk hp with hop | hop
  · left
    rw [← h.pasted_eq]
    obtain ⟨q, hq, hop⟩ := (Option.any_eq_true _ _).1 hop
    rw [hq]
    rcases Bool.or_eq_true_iff.1 hop with hhash | hpaste
    · -- A `#` in front of the parameter would have made it a string.
      have hnone := h.hash (by rw [hq]; exact hhash) t (by rw [Token.solid_cons ht]; rfl)
      rw [hnone] at ha
      cases ha
    · exact hpaste
  · exact .inr hop

end Cut

/-- The elements of a body in which the parameters are operands are made of the arguments as they
are written. -/
theorem elements_unexpanded {m : Macro} (hf : m.functionLike = true) (hm : m.OnlyOperands)
    {bs : Bindings} (hbs : ∀ b ∈ bs, b.1 ∈ m.params) (space pasted : Bool) (ts : List Token) :
    ∀ front, Cut m bs pasted front ts →
      elements m (unexpanded bs) space pasted ts = elements m bs space pasted ts := by
  fun_induction elements m bs space pasted ts with
  | case1 => intro front hcut; rw [elements]
  | case2 space pasted t ts ht ih =>
      intro front hcut
      rw [Indexed.elements_space ht]
      exact ih _ (hcut.space ht)
  | case3 space pasted t ts ht hp ih =>
      intro front hcut
      have ht : t.isSpace = false := Bool.eq_false_iff.2 ht
      have hnext : Cut m bs true (front ++ [t]) ts := by
        have hcut := Cut.behind bs hcut.body_eq ht fun hh => by
          rw [Token.isHash_of_isPaste hp] at hh
          cases hh
        rwa [hp] at hcut
      rw [Indexed.elements_paste ht hp, ih _ hnext]
  | case4 space pasted t ts ht hp a rest hs ih =>
      intro front hcut
      have ht : t.isSpace = false := Bool.eq_false_iff.2 ht
      obtain ⟨us, p, rfl, hk⟩ := exists_of_stringized? hs
      have hnext : Cut m bs false ((front ++ t :: us) ++ [p]) rest := by
        have hbody : m.body = (front ++ t :: us) ++ p :: rest := by simp [hcut.body_eq]
        have hcut := Cut.behind bs hbody (by simp [Token.isSpace, hk]) fun hh => by
          simp [Token.isHash, Token.isPunct, hk] at hh
        rwa [show p.isPaste = false by simp [Token.isPaste, Token.isPunct, hk]] at hcut
      have hs' : stringized? m (unexpanded bs) t (us ++ p :: rest) =
          some (.asWritten a.written, rest) := by
        rw [stringized?_unexpanded, hs]
        rfl
      rw [Indexed.elements_string ht (Bool.eq_false_iff.2 hp) hs', ih _ hnext]
      rfl
  | case5 space pasted t ts ht hp hs ts' ih =>
      intro front hcut
      have ht : t.isSpace = false := Bool.eq_false_iff.2 ht
      have hp : t.isPaste = false := Bool.eq_false_iff.2 hp
      have hnext : Cut m bs false (front ++ [t]) ts := by
        have hcut := Cut.behind bs hcut.body_eq ht fun hh _ hq =>
          argument?_of_stringized?_eq_none hf hh hs hq
        rwa [hp] at hcut
      have hs' : stringized? m (unexpanded bs) t ts = none := by
        rw [stringized?_unexpanded, hs]
        rfl
      rw [Indexed.elements_plain ht hp hs', ih _ hnext, argument?_unexpanded]
      simp only [ts']
      cases ha : argument? bs t with
      | none => rfl
      | some a =>
          have hjoined := hcut.joined hm hbs ht ha
          simp only [Option.map_some, hjoined, if_true, dite_true]
          rfl

/-- Substitution for parameters that are operands does not look at the expanded arguments. -/
theorem substitute_unexpanded {m : Macro} (hf : m.functionLike = true) (hm : m.OnlyOperands)
    (args : List Argument) :
    substitute m (args.map fun a => .asWritten a.written) = substitute m args := by
  have hcut : Cut m (m.params.zip args) false [] m.body := ⟨rfl, rfl, fun h => nomatch h⟩
  have hbs : ∀ b ∈ m.params.zip args, b.1 ∈ m.params := fun b hb => (List.of_mem_zip hb).1
  rw [substitute, ← unexpanded_zip, elements_unexpanded hf hm hbs false false m.body [] hcut]
  rfl

end Substitution

namespace Expansion

/-- The error of the first argument that cannot be expanded on its own. -/
def argumentError? (T : Table) (keep : Bool) (depth : Nat) (args : List (List Token)) :
    Option Error :=
  args.findSome? fun a => (expandAt T keep (depth + 1) [] a).error

theorem expandArguments_eq (expand : List Token → Output) (args : List (List Token)) :
    expandArguments expand args =
      match args.findSome? fun a => (expand a).error with
      | some e => .error e
      | none => .ok (args.map fun a => ⟨a, (expand a).tokens⟩) := by
  induction args with
  | nil => rfl
  | cons a args ih =>
      rw [expandArguments, List.findSome?_cons, ih]
      rcases hx : expand a with ⟨ts, _ | e⟩
      · simp only [List.map_cons, hx]
        cases args.findSome? fun a => (expand a).error <;> rfl
      · rfl

/-- Where no macros are defined expansion does not fail. -/
theorem expandAt_empty_error {keep : Bool} {depth : Nat} {ctx : Context} {ts : List Token}
    (h : ∀ t ∈ ts, t.isIdent Vocabulary.variadicName = false) :
    (expandAt {} keep depth ctx ts).error = none := by
  induction hn : ts.length using Nat.strongRecOn generalizing ts with
  | _ n ih =>
  cases ts with
  | nil => rw [expandAt_of_stop (e := .eof) rfl]; rfl
  | cons t ts =>
      have hrest {op rest : List Token} (happ : op ++ rest = ts) :
          (expandAt {} keep depth ctx rest).error = none := by
        refine ih rest.length ?_ (fun u hu => h u ?_) rfl
        · rw [← hn, ← happ, List.length_cons, List.length_append]
          omega
        · rw [← happ]
          exact List.mem_cons_of_mem t (List.mem_append_right op hu)
      have hcase := step_cases {} keep depth ctx t ts
      generalize hst : step (fun _ => {}) keep depth ctx (t :: ts) = st at hcase
      cases hcase with
      | pass => rw [expandAt_of_emit hst]; exact hrest (List.nil_append ts)
      | variadic hk hv =>
          have hident := h t List.mem_cons_self
          simp [Token.isIdent, hk, hv] at hident
      | operand _ _ ha =>
          have happ := afterDefined_append ts
          rw [ha] at happ
          rw [expandAt_of_emit hst]
          exact hrest happ
      | tooDeep hm | function hm | object hm => cases hm

theorem replacement_eq_of_onlyOperands {m : Macro} (hf : m.functionLike = true)
    (hm : m.OnlyOperands) (T : Table) (keep : Bool) (depth : Nat) (args : List (List Token)) :
    replacement T keep depth m args =
      match argumentError? T keep depth args with
      | some e => .error e
      | none => substitute m (args.map .asWritten) := by
  rw [replacement, expandArguments_eq, ← argumentError?]
  cases argumentError? T keep depth args with
  | some e => rfl
  | none =>
      simp only [except_ok_bind]
      rw [← Substitution.substitute_unexpanded hf hm, List.map_map]
      rfl

/-- If every parameter in the body of a function-like macro is an operand of `#` or `##`, an
invocation fails with the first argument that cannot be expanded on its own, and apart from that
the replacement is the one without any macros, made of the arguments as they are written. Two macro
tables for which the arguments fail alike, or not at all, give the same outcome. -/
theorem replacement_of_onlyOperands {m : Macro} (hf : m.functionLike = true) (hm : m.OnlyOperands)
    {args : List (List Token)}
    (hargs : ∀ a ∈ args, ∀ t ∈ a, t.isIdent Vocabulary.variadicName = false) (keep : Bool)
    (depth : Nat) :
    replacement {} keep depth m args = substitute m (args.map .asWritten) ∧
      (∀ T, replacement T keep depth m args =
        match argumentError? T keep depth args with
        | some e => .error e
        | none => replacement {} keep depth m args) ∧
      ∀ T₁ T₂, argumentError? T₁ keep depth args = argumentError? T₂ keep depth args →
        replacement T₁ keep depth m args = replacement T₂ keep depth m args := by
  have hone (T : Table) := replacement_eq_of_onlyOperands hf hm T keep depth args
  have hempty : replacement {} keep depth m args = substitute m (args.map .asWritten) := by
    have hnone : argumentError? {} keep depth args = none :=
      List.findSome?_eq_none_iff.2 fun a ha => expandAt_empty_error (hargs a ha)
    rw [hone, hnone]
  refine ⟨hempty, fun T => by rw [hempty]; exact hone T, fun T₁ T₂ herr => ?_⟩
  rw [hone, hone, herr]

namespace Sample

/-- A macro whose parameters are operands, with a white space in front of the operator. -/
def joiner : Macro where
  name := ascii "f"
  functionLike := true
  params := [ascii "x", ascii "y"]
  body := [{ kind := .punctuator, text := ascii "#" }, { kind := .identifier, text := ascii "x" },
    Token.space {}, { kind := .identifier, text := ascii "x" }, Token.space {},
    { kind := .punctuator, text := ascii "##" }, { kind := .identifier, text := ascii "y" }]

/-- A table by which the name `N` is replaced. -/
def numbered : Table :=
  ⟨[{ name := ascii "N", body := [{ kind := .number, text := ascii "5" }] }]⟩

/-- Two arguments with the name in both. -/
def named : List (List Token) :=
  [[{ kind := .identifier, text := ascii "N" }, { kind := .identifier, text := ascii "a" }],
    [{ kind := .identifier, text := ascii "N" }]]

/-- A macro that makes strings and one that takes two arguments. -/
def stringizing : Text :=
  ascii "#define F(a,b) a\n#define S(x) #x\n"

def stringizer : Token :=
  { kind := .identifier, text := ascii "S" }

/-- An invocation of the other macro with one argument. -/
def invalid : List Token :=
  [{ kind := .identifier, text := ascii "F" }, { kind := .punctuator, text := ascii "(" },
    { kind := .number, text := ascii "1" }, { kind := .punctuator, text := ascii ")" }]

end Sample

/-- The name is replaced in the arguments, but not in the string and the joined token. -/
theorem replacement_of_onlyOperands_named :
    Sample.joiner.OnlyOperands ∧ Sample.numbered.isDefined (ascii "N") = true ∧
      argumentError? Sample.numbered false 0 Sample.named =
        argumentError? {} false 0 Sample.named ∧
      replacement Sample.numbered false 0 Sample.joiner Sample.named =
        replacement {} false 0 Sample.joiner Sample.named := by
  have hm : Sample.joiner.OnlyOperands := by decide
  have hargs : ∀ a ∈ Sample.named, ∀ t ∈ a, t.isIdent Vocabulary.variadicName = false := by
    decide
  have hnone {T : Table} (h : ∀ a ∈ Sample.named,
      (expandWithin T false 5 1 [] a).map Output.error = some none) :
      argumentError? T false 0 Sample.named = none := by
    refine List.findSome?_eq_none_iff.2 fun a ha => ?_
    obtain ⟨out, hout, herr⟩ := Option.map_eq_some_iff.1 (h a ha)
    rw [expandAt_of_within hout, herr]
  have herr : argumentError? Sample.numbered false 0 Sample.named =
      argumentError? {} false 0 Sample.named := by
    rw [hnone (by decide +kernel), hnone (by decide +kernel)]
  obtain ⟨-, -, htwo⟩ := replacement_of_onlyOperands rfl hm hargs false 0
  exact ⟨hm, by decide, herr, htwo _ _ herr⟩

/-- An argument that is only made a string is expanded all the same: the invocation fails with the
one inside the argument, though without macros there is a replacement. -/
theorem not_replacement_independent_stringizing :
    ∃ (T : Table) (m : Macro) (e : Error) (t : Token), T.Reachable ∧ m ∈ T.entries ∧
      m.functionLike = true ∧ m.OnlyOperands ∧
      (Arguments.assign m Sample.stringizer [Sample.invalid]).toOption = some [Sample.invalid] ∧
      (∀ t ∈ Sample.invalid, t.isIdent Vocabulary.variadicName = false) ∧
      replacement T false 0 m [Sample.invalid] = .error e ∧
      replacement {} false 0 m [Sample.invalid] = .ok [t] := by
  have hcheck : (({} : Preprocessor).runWithin 9 Sample.stringizing).any (fun r =>
      r.2.2.entries.any fun m => m.functionLike ∧ m.OnlyOperands ∧
        (Arguments.assign m Sample.stringizer [Sample.invalid]).toOption = some [Sample.invalid] ∧
        ((argumentsWithin (expandWithin r.2.2 false 9 1 []) [Sample.invalid]).any
          fun as => !as.isOk) ∧
        ((argumentsWithin (expandWithin {} false 9 1 []) [Sample.invalid]).any
          fun as => (as >>= substitute m).toOption.any fun ts => ts.length = 1)) = true := by
    decide +kernel
  obtain ⟨⟨ts, e, T⟩, hr, hT⟩ := (Option.any_eq_true _ _).1 hcheck
  obtain ⟨m, hm, hm'⟩ := List.any_eq_true.1 hT
  obtain ⟨hf, hoperands, hassign, hfailed, hmade⟩ := of_decide_eq_true hm'
  obtain ⟨events, hrun⟩ := Preprocessor.run_of_runWithin hr []
  have hreach : T.Reachable := by
    have hend := Table.Reachable.run (p := {}) [] Sample.stringizing .empty
    rwa [hrun] at hend
  obtain ⟨as, has, herror⟩ := (Option.any_eq_true _ _).1 hfailed
  obtain ⟨bs, hbs, hone⟩ := (Option.any_eq_true _ _).1 hmade
  have hbad := replacement_of_within (m := m) has
  have hgood := replacement_of_within (m := m) hbs
  cases as with
  | ok as => cases herror
  | error e =>
      cases hsub : bs >>= substitute m with
      | error e' => rw [hsub] at hone; cases hone
      | ok body =>
          rw [hsub] at hone hgood
          obtain ⟨t, rfl⟩ := List.length_eq_one_iff.1 (of_decide_eq_true hone)
          exact ⟨T, m, e, t, hreach, hm, hf, hoperands, hassign, by decide, hbad, hgood⟩

end Expansion
end CPreprocessor

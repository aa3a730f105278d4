import CPreprocessor.Proofs.Condition.Completeness

/-!
What is read is the yield of a tree, with its value. With the converse, a whole list of tokens
is evaluated exactly if a tree of the grammar yields it and has a value.
-/

namespace CPreprocessor
namespace Expression

/-- What was read of `ts` is the yield of a tree of the rank with the value found. -/
def Derived (env : Env) (live : Bool) (k : Rank) (ts : List Token) (x : Value × List Token) :
    Prop :=
  ∃ e us, ts = us ++ x.2 ∧ Yields k e us ∧ e.run env.table live = some x.1

def Sound (env : Env) (k : Rank) (ts : List Token) : Prop :=
  ∀ live x, k.read env live ts = some x → Derived env live k ts x

def Solid (ts : List Token) : Prop :=
  ∀ t ∈ ts, t.isSpace = false

/-- Every rank is sound on the lists of fewer than `n` tokens. -/
def SoundBelow (env : Env) (n : Nat) : Prop :=
  ∀ k ts, ts.length < n → Solid ts → Sound env k ts

theorem Solid.of_append {us ts : List Token} (h : Solid (us ++ ts)) : Solid ts :=
  fun t ht => h t (List.mem_append_right us ht)

theorem Solid.tail {t : Token} {ts : List Token} (h : Solid (t :: ts)) : Solid ts :=
  fun t' ht => h t' (List.mem_cons_of_mem t ht)

theorem Derived.promote {env : Env} {live : Bool} {j k : Rank} {ts : List Token}
    {x : Value × List Token} (h : Derived env live j ts x)
    (hjk : ∀ e us, Yields j e us → Yields k e us) : Derived env live k ts x := by
  obtain ⟨e, us, hts, he, hv⟩ := h
  exact ⟨e, us, hts, hjk e us he, hv⟩

theorem closed?_eq_some {s : Text} {ts rest : List Token} (h : closed? s ts = some rest) :
    ∃ k, ts = k :: rest ∧ k.isPunct s = true := by
  cases ts with
  | nil => cases h
  | cons k ts =>
      rw [closed?] at h
      split at h
      · rename_i hk
        cases h
        exact ⟨k, rfl, hk⟩
      · cases h

theorem Solid.dropWhile {ts : List Token} (h : Solid ts) : ts.dropWhile Token.isSpace = ts := by
  cases ts with
  | nil => rfl
  | cons t ts => exact dropWhile_solid (h t List.mem_cons_self) ts

theorem nameOperand_eq_ok {T : Table} {pos : Pos} {ts rest : List Token} {b : Bool}
    (hs : Solid ts) (h : nameOperand T pos ts = .ok (b, rest)) :
    (∃ n, n.kind = .identifier ∧ ts = n :: rest ∧ b = T.isDefined n.text) ∨
      ∃ o n c, o.isPunct (ascii "(") = true ∧ n.kind = .identifier ∧
        c.isPunct (ascii ")") = true ∧ ts = o :: n :: c :: rest ∧ b = T.isDefined n.text := by
  simp only [nameOperand, hs.dropWhile] at h
  cases ts with
  | nil => cases h
  | cons t ts =>
      simp only [hs.tail.dropWhile] at h
      split at h
      · rename_i ho
        cases ts with
        | nil => cases h
        | cons n ts =>
            simp only [hs.tail.tail.dropWhile] at h
            split at h
            · cases h
            · rename_i hn
              cases ts with
              | nil => cases h
              | cons c ts =>
                  simp only at h
                  split at h
                  · rename_i hc
                    cases h
                    exact .inr ⟨t, n, c, ho, Decidable.not_not.1 hn, hc, rfl, rfl⟩
                  · cases h
      · split at h
        · rename_i hn
          cases h
          exact .inl ⟨t, hn, rfl, rfl⟩
        · cases h

theorem derived_defined {env : Env} {live : Bool} {t : Token} {ts : List Token}
    {x : Value × List Token} (ht : t.isIdent (ascii "defined") = true) (hs : Solid ts)
    (h : ((nameOperand env.table t.pos ts).toOption.map fun x => (Value.ofBool x.1, x.2)) =
      some x) : Derived env live .primary (t :: ts) x := by
  cases hn : nameOperand env.table t.pos ts with
  | error e =>
      rw [hn] at h
      cases h
  | ok y =>
      obtain ⟨b, rest⟩ := y
      rw [hn] at h
      cases h
      rcases nameOperand_eq_ok hs hn with ⟨n, hk, hts, hb⟩ | ⟨o, n, c, ho, hk, hc, hts, hb⟩
      · refine ⟨.defined n, [t, n], by rw [hts]; rfl, .defined ht hk, ?_⟩
        rw [Tree.run, hb]
      · refine ⟨.defined n, [t, o, n, c], by rw [hts]; rfl, .definedInside ht ho hk hc, ?_⟩
        rw [Tree.run, hb]

namespace SoundBelow

variable {env : Env} {n : Nat} {live : Bool} {ts : List Token} {y : Value × List Token}

/-- A comma list so far is extended to the whole list that is read. -/
theorem more_comma (hn : SoundBelow env n) {l : Tree} {us : List Token} {x : Value}
    (hl : Yields .comma l us) (hx : l.run env.table live = some x) (hlen : ts.length < n)
    (hs : Solid ts) (h : Rank.comma.more env live x ts = some y) :
    Derived env live .comma (us ++ ts) y := by
  induction hm : ts.length using Nat.strongRecOn generalizing l us x ts with
  | ind m ih =>
      cases ts with
      | nil =>
          rw [Rank.more_comma_nil] at h
          cases h
          exact ⟨l, us, rfl, hl, hx⟩
      | cons t ts =>
          rw [Rank.more_comma_cons] at h
          simp only [List.length_cons] at hlen hm
          split at h
          · rename_i ht
            obtain ⟨z, hz, h⟩ := Option.bind_eq_some_iff.1 h
            have hlt := Rank.length_lt_of_read env live hz
            obtain ⟨r, vs, hts, hr, hv⟩ := hn .conditional ts (by omega) hs.tail live z hz
            have hrun : (Tree.comma l r).run env.table live = some z.1 := by
              rw [Tree.run, hx]
              exact hv
            have hz2 : Solid z.2 := Solid.of_append (hts ▸ hs.tail)
            have hrec := ih z.2.length (by omega) (hl.list ht hr) hrun (by omega) hz2 h rfl
            rw [hts]
            simpa only [List.append_assoc, List.cons_append] using hrec
          · cases h
            exact ⟨l, us, rfl, hl, hx⟩

/-- The same for the operators of one level, in front of which there are none that bind
tighter. -/
theorem more_binary (hn : SoundBelow env n) {level : Nat} {l : Tree} {us : List Token} {x : Value}
    (hl : Yields (.binary level) l us) (hx : l.run env.table live = some x)
    (hlen : ts.length < n) (hs : Solid ts) (hloose : Loose level ts)
    (h : (Rank.binary level).more env live x ts = some y) :
    Derived env live (.binary level) (us ++ ts) y := by
  induction hm : ts.length using Nat.strongRecOn generalizing l us x ts with
  | ind m ih =>
      cases ts with
      | nil =>
          rw [Rank.more_binary_nil] at h
          cases h
          exact ⟨l, us, rfl, hl, hx⟩
      | cons t ts =>
          rw [Rank.more_binary_level hloose] at h
          simp only [List.length_cons] at hlen hm
          split at h
          · cases h
            exact ⟨l, us, rfl, hl, hx⟩
          · rename_i op hop
            split at h
            · rename_i hlevel
              subst hlevel
              obtain ⟨s, ho, hk⟩ := binaryOp?_eq_some_iff.1 hop
              obtain ⟨z, hz, h⟩ := Option.bind_eq_some_iff.1 h
              obtain ⟨w, hw, h⟩ := Option.bind_eq_some_iff.1 h
              have hlt := Rank.length_lt_of_read env _ hz
              obtain ⟨r, vs, hts, hr, hv⟩ := hn _ ts (by omega) hs.tail _ z hz
              have hrun : (Tree.binary op l r).run env.table live = some w := by
                rw [Tree.run, hx, Option.bind_some, hv, Option.bind_some, hw]
              have hz2 : Solid z.2 := Solid.of_append (hts ▸ hs.tail)
              have hrec := ih z.2.length (by omega) (hl.operation ho hk hr) hrun (by omega) hz2
                (Rank.loose_of_read hz) h rfl
              rw [hts]
              simpa only [List.append_assoc, List.cons_append] using hrec
            · cases h
              exact ⟨l, us, rfl, hl, hx⟩

theorem comma (hn : SoundBelow env ts.length) (hs : Solid ts) (hc : Sound env .conditional ts) :
    Sound env .comma ts := by
  intro live x h
  rw [Rank.read_comma] at h
  obtain ⟨z, hz, h⟩ := Option.bind_eq_some_iff.1 h
  obtain ⟨e, us, hts, he, hv⟩ := hc live z hz
  have hlt := Rank.length_lt_of_read env live hz
  have hz2 : Solid z.2 := Solid.of_append (hts ▸ hs)
  exact hts ▸ hn.more_comma he.last hv hlt hz2 h

theorem conditional (hn : SoundBelow env ts.length) (hs : Solid ts)
    (hb : Sound env (.binary 1) ts) : Sound env .conditional ts := by
  intro live x h
  rw [Rank.read_conditional] at h
  obtain ⟨⟨c, rest⟩, hc, hbr⟩ := Option.bind_eq_some_iff.1 h
  obtain ⟨e, us, rfl, he, hv⟩ := hb live _ hc
  have hs := hs.of_append
  cases rest with
  | nil =>
      cases hbr
      exact ⟨e, us, rfl, he.single, hv⟩
  | cons q rest =>
      simp only [Rank.branches] at hbr
      split at hbr
      · rename_i hq
        obtain ⟨⟨y, rest₁⟩, hy, hbr⟩ := Option.bind_eq_some_iff.1 hbr
        obtain ⟨rest₂, hrest, hbr⟩ := Option.bind_eq_some_iff.1 hbr
        obtain ⟨⟨z, rest₃⟩, hz', rfl⟩ := Option.map_eq_some_iff.1 hbr
        obtain ⟨k, rfl, hk⟩ := closed?_eq_some hrest
        obtain ⟨a, vs, rfl, ha, hav⟩ := hn .comma rest (by simp; omega) hs.tail _ _ hy
        have hs' : Solid rest₂ := hs.tail.of_append.tail
        obtain ⟨b, ws, rfl, hb, hbv⟩ := hn .conditional rest₂ (by simp; omega) hs' _ _ hz'
        refine ⟨.conditional e a b, us ++ q :: (vs ++ k :: ws), ?_, he.choice hq ha hk hb, ?_⟩
        · simp only [List.append_assoc, List.cons_append]
        · simp only [Tree.run, hv, Option.bind_some, hav, hbv, Option.map_some]
      · cases hbr
        exact ⟨e, us, rfl, he.single, hv⟩

theorem binary (hn : SoundBelow env ts.length) (hs : Solid ts) (hu : Sound env .unary ts)
    (level : Nat) : Sound env (.binary level) ts := by
  induction hm : 11 - level generalizing level with
  | zero =>
      intro live x h
      have hlevel : 10 < level := by omega
      rw [Rank.read_tightest hlevel] at h
      exact (hu live x h).promote fun _ _ => .tightest hlevel
  | succ m ih =>
      intro live x h
      have hlevel : level ≤ 10 := by omega
      rw [Rank.read_binary_succ] at h
      obtain ⟨z, hz, h⟩ := Option.bind_eq_some_iff.1 h
      obtain ⟨e, us, hts, he, hv⟩ := ih (level + 1) (by omega) live z hz
      have hlt := Rank.length_lt_of_read env live hz
      have hz2 : Solid z.2 := Solid.of_append (hts ▸ hs)
      exact hts ▸ hn.more_binary (he.operand hlevel) hv hlt hz2 (Rank.loose_of_read hz) h

theorem unary (hn : SoundBelow env ts.length) (hs : Solid ts) (hp : Sound env .primary ts) :
    Sound env .unary ts := by
  intro live x h
  cases ts with
  | nil =>
      rw [Rank.read_unary_nil] at h
      cases h
  | cons t ts =>
      rw [Rank.read_unary_cons] at h
      split at h
      · rename_i op hop
        obtain ⟨z, hz, rfl⟩ := Option.map_eq_some_iff.1 h
        obtain ⟨e, us, hts, he, hv⟩ := hn .unary ts (by simp) hs.tail live z hz
        obtain ⟨s, ho, hk⟩ := unaryOp?_eq_some_iff.1 hop
        refine ⟨.unary op e, t :: us, by rw [hts]; rfl, he.applied ho hk, ?_⟩
        rw [Tree.run, hv]
        rfl
      · exact (hp live x h).promote fun _ _ => .plain

theorem primary (hn : SoundBelow env ts.length) (hs : Solid ts) : Sound env .primary ts := by
  intro live x h
  cases ts with
  | nil => cases h
  | cons t ts =>
      rcases Rank.head_of_read_primary h with hk | hk | ⟨hk, ho⟩ | hk
      · rw [Rank.read_number env live hk] at h
        obtain ⟨v, hv, rfl⟩ := Option.map_eq_some_iff.1 h
        exact ⟨.number t, [t], rfl, .number hk, hv⟩
      · rw [Rank.read_character env live hk] at h
        obtain ⟨v, hv, rfl⟩ := Option.map_eq_some_iff.1 h
        exact ⟨.character t, [t], rfl, .character hk, hv⟩
      · by_cases hd : t.text = ascii "defined"
        · have ht : t.isIdent (ascii "defined") = true := by
            simp [Token.isIdent, hk, hd]
          rw [Rank.read_defined env live ht] at h
          exact derived_defined ht hs.tail h
        · rw [Rank.read_name env live hk ho hd] at h
          cases h
          exact ⟨.name t, [t], rfl, .name hk ((operator?_eq_none_iff hk).1 ho) hd, rfl⟩
      · rw [Rank.read_inside env live hk] at h
        obtain ⟨z, hz, h⟩ := Option.bind_eq_some_iff.1 h
        obtain ⟨rest, hrest, rfl⟩ := Option.map_eq_some_iff.1 h
        obtain ⟨c, hc, hpunct⟩ := closed?_eq_some hrest
        obtain ⟨e, us, hts, he, hv⟩ := hn .comma ts (by simp) hs.tail live z hz
        refine ⟨e, t :: (us ++ [c]), ?_, he.inside hk hpunct, hv⟩
        rw [hts, hc]
        simp only [List.cons_append, List.append_assoc, List.nil_append]

end SoundBelow

theorem sound (env : Env) {ts : List Token} (hs : Solid ts) (k : Rank) : Sound env k ts := by
  induction hm : ts.length using Nat.strongRecOn generalizing ts k with
  | ind m ih =>
      subst hm
      have hn : SoundBelow env ts.length := fun k us hlt hus => ih us.length hlt hus k rfl
      have hp := hn.primary hs
      have hu := hn.unary hs hp
      have hb := hn.binary hs hu
      have hc := hn.conditional hs (hb 1)
      cases k with
      | comma => exact hn.comma hs hc
      | conditional => exact hc
      | binary n => exact hb n
      | unary => exact hu
      | primary => exact hp

theorem evaluate_eq_ok_iff_read (env : Env) (ts : List Token) (v : Value) :
    evaluate env ts = .ok v ↔ Rank.comma.read env true ts = some (v, []) := by
  rw [evaluate, Rank.read]
  rcases comma env true ts with e | ⟨w, rest, hr⟩
  · exact ⟨by rintro ⟨⟩, by rintro ⟨⟩⟩
  · cases rest with
    | nil =>
        constructor
        · rintro ⟨⟩
          rfl
        · rintro ⟨⟩
          rfl
    | cons t rest => exact ⟨by rintro ⟨⟩, by rintro ⟨⟩⟩

theorem yields_of_evaluate {env : Env} {ts : List Token} (hs : Solid ts) {v : Value}
    (h : evaluate env ts = .ok v) :
    ∃ e, Yields .comma e ts ∧ e.run env.table true = some v := by
  rw [evaluate_eq_ok_iff_read] at h
  obtain ⟨e, us, hts, he, hv⟩ := sound env hs .comma true _ h
  rw [List.append_nil] at hts
  exact ⟨e, hts ▸ he, hv⟩

theorem Yields.evaluate {e : Tree} {ts : List Token} (he : Yields .comma e ts) (env : Env)
    {v : Value} (hv : e.run env.table true = some v) : evaluate env ts = .ok v := by
  rw [evaluate_eq_ok_iff_read]
  have h := he.reads env true v [] hv Ended.nil
  rwa [List.append_nil, Rank.more_comma_nil] at h

/-- A list of tokens without white space is evaluated exactly if it is the yield of a tree of
the grammar, and to the value of that tree. -/
theorem evaluate_eq_ok_iff_yields (env : Env) (ts : List Token)
    (hs : ∀ t ∈ ts, t.isSpace = false) (v : Value) :
    evaluate env ts = .ok v ↔ ∃ e, Yields .comma e ts ∧ e.eval env.table = some v := by
  simp only [Tree.eval_eq_run]
  constructor
  · exact yields_of_evaluate hs
  · rintro ⟨e, he, hv⟩
    exact he.evaluate env hv

/-- An expression of a level is one of every looser level. -/
theorem Yields.loosen {m n : Nat} {e : Tree} {ts : List Token} (h : Yields (.binary n) e ts)
    (hmn : m ≤ n) (hn : n ≤ 11) : Yields (.binary m) e ts := by
  induction hk : n - m generalizing m with
  | zero =>
      have : m = n := by omega
      exact this ▸ h
  | succ k ih => exact .operand (by omega) (ih (by omega) (by omega))

theorem Yields.ofNumber {t : Token} (ht : t.kind = .number) {m : Nat} (hm : m ≤ 11) :
    Yields (.binary m) (.number t) [t] :=
  (Yields.tightest (Nat.lt_succ_self _) (.plain (.number ht))).loosen hm (Nat.le_refl _)

/-- In `0 and 1 / 0 ? 2u : compl 0` the quotient does not count, and the branch that is not
taken makes the value unsigned. -/
theorem evaluate_idle_quotient :
    let n (s : String) : Token := { kind := .number, text := ascii s }
    let p (s : String) : Token := { kind := .punctuator, text := ascii s }
    let w (s : String) : Token := { kind := .identifier, text := ascii s }
    let ts := [n "0", w "and", n "1", p "/", n "0", p "?", n "2u", p ":", w "compl", n "0"]
    (∀ t ∈ ts, t.isSpace = false) ∧
      evaluate ⟨.empty, {}⟩ ts = .ok { word := -1, unsigned := true } := by
  intro n p w ts
  have hs : ∀ t ∈ ts, t.isSpace = false := by
    decide
  have hn (s : String) {m : Nat} (hm : m ≤ 11) : Yields (.binary m) (.number (n s)) [n s] :=
    .ofNumber rfl hm
  have hquotient : Yields (.binary 10) (.binary .div (.number (n "1")) (.number (n "0")))
      [n "1", p "/", n "0"] :=
    .operation .div (hn "1" (by decide)) (.punctuator rfl) (hn "0" (by decide))
  have hboth : Yields (.binary 2) (.binary .and (.number (n "0"))
      (.binary .div (.number (n "1")) (.number (n "0"))))
      [n "0", w "and", n "1", p "/", n "0"] :=
    .operation .and (hn "0" (by decide)) (.word .and rfl)
      (hquotient.loosen (by decide) (by decide))
  have hcomplement : Yields (.binary 11) (.unary .complement (.number (n "0")))
      [w "compl", n "0"] :=
    .tightest (by decide) (.applied .complement (.word .compl rfl) (.plain (.number rfl)))
  have htree := Yields.choice (hboth.loosen (by decide) (by decide)) (q := p "?") rfl
    (.last (.single (hn "2u" (by decide)))) (k := p ":") rfl
    (.single (hcomplement.loosen (by decide) (by decide)))
  exact ⟨hs, (evaluate_eq_ok_iff_yields ⟨.empty, {}⟩ ts hs _).2
    ⟨_, .last htree, by decide⟩⟩

end Expression
end CPreprocessor

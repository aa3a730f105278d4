import CPreprocessor.Proofs.Condition.Climbing

/-!
Every yield is read. The tokens of a tree are read with its value in front of any tokens that
do not continue them, so the rank says what may follow.
-/

namespace CPreprocessor
namespace Expression

/-- What comes next continues no conditional expression. -/
def Ended (ts : List Token) : Prop :=
  Loose 0 ts ∧ ∀ t, ts.head? = some t → t.isPunct (ascii "?") = false

theorem isSpace_of_identifier {n : Token} (hn : n.kind = .identifier) : n.isSpace = false := by
  simp [Token.isSpace, hn]

theorem dropWhile_solid {t : Token} (ht : t.isSpace = false) (ts : List Token) :
    (t :: ts).dropWhile Token.isSpace = t :: ts := by
  rw [List.dropWhile_cons, ht]
  rfl

theorem nameOperand_name {n : Token} (hn : n.kind = .identifier) (T : Table) (pos : Pos)
    (rest : List Token) : nameOperand T pos (n :: rest) = .ok (T.isDefined n.text, rest) := by
  have hp : n.isPunct (ascii "(") = false := by
    simp [Token.isPunct, hn]
  simp [nameOperand, dropWhile_solid (isSpace_of_identifier hn), hp, hn]

theorem nameOperand_inside {o n c : Token} (ho : o.isPunct (ascii "(") = true)
    (hn : n.kind = .identifier) (hc : c.isPunct (ascii ")") = true) (T : Table) (pos : Pos)
    (rest : List Token) :
    nameOperand T pos (o :: n :: c :: rest) = .ok (T.isDefined n.text, rest) := by
  simp only [nameOperand, dropWhile_solid (Token.isSpace_of_isPunct ho), ho, if_true,
    dropWhile_solid (isSpace_of_identifier hn), hn, ne_eq, not_true_eq_false, if_false,
    dropWhile_solid (Token.isSpace_of_isPunct hc), hc]

theorem Ended.nil : Ended [] := by
  refine ⟨.nil 0, ?_⟩
  intro t ht
  cases ht

theorem Ended.cons_of_punct {k : Token} {s : Text} (hk : k.isPunct s = true)
    (hs : BinaryOp.ofSpelling? s = none) (hq : s ≠ ascii "?") (ts : List Token) :
    Ended (k :: ts) := by
  refine ⟨Loose.cons_of_punct hk hs 0 ts, ?_⟩
  intro t ht
  cases ht
  exact Token.isPunct_eq_false hk hq

/-- What may follow an expression of a rank without continuing it. -/
def Rank.Stops : Rank → List Token → Prop
  | comma, ts | conditional, ts => Ended ts
  | binary n, ts => Loose n ts
  | unary, _ | primary, _ => True

/-- The tokens of a tree are read with its value, in front of what does not continue them. -/
def Reads (env : Env) (k : Rank) (e : Tree) (us : List Token) : Prop :=
  ∀ live v rest, e.run env.table live = some v → k.Stops rest →
    k.read env live (us ++ rest) = k.more env live v rest

namespace Reads

variable {env : Env} {e l r c a b : Tree} {us vs ws : List Token} {k q : Token}

theorem last (h : Reads env .conditional e us) : Reads env .comma e us := by
  intro live v rest hv hrest
  rw [Rank.read_comma, h live v rest hv hrest]
  rfl

theorem list (hl : Reads env .comma l us) (hk : k.isPunct (ascii ",") = true)
    (hr : Reads env .conditional r vs) : Reads env .comma (.comma l r) (us ++ k :: vs) := by
  intro live v rest hv hrest
  obtain ⟨x, hx, hv⟩ := Option.bind_eq_some_iff.1 hv
  have hend : Ended (k :: (vs ++ rest)) :=
    Ended.cons_of_punct hk (by decide) (by decide) _
  rw [List.append_assoc, List.cons_append, hl live x _ hx hend, Rank.more_comma_cons, if_pos hk,
    hr live v rest hv hrest]
  rfl

theorem single (h : Reads env (.binary 1) e us) : Reads env .conditional e us := by
  intro live v rest hv hrest
  rw [Rank.read_conditional, h live v rest hv (hrest.1.mono (by omega)),
    Rank.more_binary_of_loose hrest.1 (by omega)]
  cases rest with
  | nil => rfl
  | cons t rest =>
      have ht := hrest.2 t rfl
      simp only [Option.bind_some, Rank.branches, ht, Bool.false_eq_true, if_false, Rank.more]

theorem choice (hc : Reads env (.binary 1) c us) (hq : q.isPunct (ascii "?") = true)
    (ha : Reads env .comma a vs) (hk : k.isPunct (ascii ":") = true)
    (hb : Reads env .conditional b ws) :
    Reads env .conditional (.conditional c a b) (us ++ q :: (vs ++ k :: ws)) := by
  intro live v rest hv hrest
  obtain ⟨x, hx, hv⟩ := Option.bind_eq_some_iff.1 hv
  obtain ⟨y, hy, hv⟩ := Option.bind_eq_some_iff.1 hv
  obtain ⟨z, hz, rfl⟩ := Option.map_eq_some_iff.1 hv
  have hloose (n : Nat) : Loose n (q :: (vs ++ (k :: (ws ++ rest)))) :=
    Loose.cons_of_punct hq (by decide) n _
  have hend : Ended (k :: (ws ++ rest)) :=
    Ended.cons_of_punct hk (by decide) (by decide) _
  have hcolon : k.isPunct (ascii ",") = false := Token.isPunct_eq_false hk (by decide)
  have hcond : (Rank.binary 1).read env live (us ++ q :: (vs ++ k :: (ws ++ rest))) =
      some (x, q :: (vs ++ k :: (ws ++ rest))) := by
    rw [hc live x _ hx (hloose 1), Rank.more_binary_of_loose (hloose 0) (by omega)]
  have htrue : Rank.comma.read env (live && x.isTrue) (vs ++ k :: (ws ++ rest)) =
      some (y, k :: (ws ++ rest)) := by
    rw [ha _ y _ hy hend, Rank.more_comma_cons, hcolon]
    rfl
  have hfalse : Rank.conditional.read env (live && !x.isTrue) (ws ++ rest) = some (z, rest) :=
    hb _ z rest hz hrest
  rw [List.append_assoc, List.cons_append, List.append_assoc, List.cons_append,
    Rank.read_conditional, hcond]
  simp only [Option.bind_some, Rank.branches, hq, if_true, htrue, closed?, hk, hfalse]
  rfl

theorem operand {n : Nat} (h : Reads env (.binary (n + 1)) e us) :
    Reads env (.binary n) e us := by
  intro live v rest hv hrest
  rw [Rank.read_binary_succ, h live v rest hv (Loose.mono hrest (by omega)),
    Rank.more_binary_of_loose hrest (by omega)]
  rfl

theorem operation {n : Nat} {op : BinaryOp} {s : Text} (ho : Operator n op s)
    (hl : Reads env (.binary n) l us) (hk : Stands s k) (hr : Reads env (.binary (n + 1)) r vs) :
    Reads env (.binary n) (.binary op l r) (us ++ k :: vs) := by
  intro live v rest hv hrest
  obtain ⟨x, hx, hv⟩ := Option.bind_eq_some_iff.1 hv
  obtain ⟨y, hy, hv⟩ := Option.bind_eq_some_iff.1 hv
  obtain rfl : op.level = n := ho.level
  have hop : binaryOp? k = some op := binaryOp?_eq_some_iff.2 ⟨s, ho, hk⟩
  rw [List.append_assoc, List.cons_append,
    hl live x _ hx (.cons_of_le hop (Nat.le_refl _) _), Rank.more_binary_of_le hop (Nat.le_refl _),
    hr _ y rest hy (Loose.mono hrest (by omega)), Rank.more_binary_of_loose hrest (by omega)]
  simp only [Option.bind_some, hv]

theorem tightest {n : Nat} (hn : 10 < n) (h : Reads env .unary e us) :
    Reads env (.binary n) e us := by
  intro live v rest hv hrest
  have hloose : Loose 10 rest := fun _ op _ _ => level_le op
  rw [Rank.read_tightest hn, h live v rest hv trivial, Rank.more_binary_of_loose hloose hn]
  rfl

theorem plain (h : Reads env .primary e us) : Reads env .unary e us := by
  intro live v rest hv hrest
  exact Rank.read_unary_of_primary (h live v rest hv trivial)

theorem applied {op : UnaryOp} {s : Text} (ho : PrefixOperator op s) (hk : Stands s k)
    (h : Reads env .unary e us) : Reads env .unary (.unary op e) (k :: us) := by
  intro live v rest hv hrest
  obtain ⟨x, hx, rfl⟩ := Option.map_eq_some_iff.1 hv
  rw [List.cons_append, Rank.read_unary_cons, unaryOp?_eq_some_iff.2 ⟨s, ho, hk⟩]
  simp only
  rw [h live x rest hx trivial]
  rfl

theorem number {t : Token} (ht : t.kind = .number) : Reads env .primary (.number t) [t] := by
  intro live v rest hv hrest
  rw [Tree.run] at hv
  rw [List.singleton_append, Rank.read_number env live ht, hv]
  rfl

theorem character {t : Token} (ht : t.kind = .character) :
    Reads env .primary (.character t) [t] := by
  intro live v rest hv hrest
  rw [Tree.run] at hv
  rw [List.singleton_append, Rank.read_character env live ht, hv]
  rfl

theorem name {t : Token} (ht : t.kind = .identifier) (hw : ∀ s, ¬Alternative t.text s)
    (hd : t.text ≠ ascii "defined") : Reads env .primary (.name t) [t] := by
  intro live v rest hv hrest
  cases hv
  exact Rank.read_name env live ht ((operator?_eq_none_iff ht).2 hw) hd rest

theorem defined {d n : Token} (hd : d.isIdent (ascii "defined") = true)
    (hn : n.kind = .identifier) : Reads env .primary (.defined n) [d, n] := by
  intro live v rest hv hrest
  cases hv
  rw [List.cons_append, List.singleton_append, Rank.read_defined env live hd,
    nameOperand_name hn]
  rfl

theorem definedInside {d o n c : Token} (hd : d.isIdent (ascii "defined") = true)
    (ho : o.isPunct (ascii "(") = true) (hn : n.kind = .identifier)
    (hc : c.isPunct (ascii ")") = true) : Reads env .primary (.defined n) [d, o, n, c] := by
  intro live v rest hv hrest
  cases hv
  simp only [List.cons_append, List.nil_append]
  rw [Rank.read_defined env live hd, nameOperand_inside ho hn hc]
  rfl

theorem inside {o c : Token} (ho : o.isPunct (ascii "(") = true) (h : Reads env .comma e us)
    (hc : c.isPunct (ascii ")") = true) : Reads env .primary e (o :: (us ++ [c])) := by
  intro live v rest hv hrest
  have hend : Ended (c :: rest) :=
    Ended.cons_of_punct hc (by decide) (by decide) _
  have hcomma : c.isPunct (ascii ",") = false := Token.isPunct_eq_false hc (by decide)
  rw [List.cons_append, List.append_assoc, Rank.read_inside env live ho,
    List.singleton_append, h live v _ hv hend, Rank.more_comma_cons, hcomma]
  simp only [Bool.false_eq_true, if_false, Option.bind_some, closed?, hc, if_true]
  rfl

end Reads

theorem Yields.reads {k : Rank} {e : Tree} {us : List Token} (h : Yields k e us) (env : Env) :
    Reads env k e us := by
  induction h with
  | last _ ih => exact ih.last
  | list _ hk _ ihl ihr => exact ihl.list hk ihr
  | single _ ih => exact ih.single
  | choice _ hq _ hk _ ihc iha ihb => exact ihc.choice hq iha hk ihb
  | operand _ _ ih => exact ih.operand
  | operation ho _ hk _ ihl ihr => exact ihl.operation ho hk ihr
  | tightest hn _ ih => exact ih.tightest hn
  | plain _ ih => exact ih.plain
  | applied ho hk _ ih => exact ih.applied ho hk
  | number ht => exact .number ht
  | character ht => exact .character ht
  | name ht hw hd => exact .name ht hw hd
  | defined hd hn => exact .defined hd hn
  | definedInside hd ho hn hc => exact .definedInside hd ho hn hc
  | inside ho _ hc ih => exact .inside ho ih hc

end Expression
end CPreprocessor

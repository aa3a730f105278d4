import CPreprocessor.Proofs.Condition.Grammar

/-!
The tables of the reader against the grammar. The spellings that the reader looks up, for
binary operators, prefix operators and words that stand for punctuators, are those that the
grammar lists, and the level that it compares is the level of the grammar.
-/

namespace CPreprocessor
namespace Expression

theorem Operator.spelling {n : Nat} {op : BinaryOp} {s : Text} (h : Operator n op s) :
    op.spelling = s := by
  cases h <;> rfl

theorem Operator.level {n : Nat} {op : BinaryOp} {s : Text} (h : Operator n op s) :
    op.level = n := by
  cases h <;> rfl

/-- Every binary operator is listed. -/
theorem operator_level_spelling : ∀ op : BinaryOp, Operator op.level op op.spelling
  | .or => .or
  | .and => .and
  | .bitOr => .bitOr
  | .bitXor => .bitXor
  | .bitAnd => .bitAnd
  | .eq => .eq
  | .ne => .ne
  | .lt => .lt
  | .gt => .gt
  | .le => .le
  | .ge => .ge
  | .shl => .shl
  | .shr => .shr
  | .add => .add
  | .sub => .sub
  | .mul => .mul
  | .div => .div
  | .rem => .rem

/-- Every prefix operator is listed. -/
theorem prefixOperator_spelling : ∀ op : UnaryOp, PrefixOperator op op.spelling
  | .plus => .plus
  | .minus => .minus
  | .complement => .complement
  | .negation => .negation

theorem ofSpelling?_eq_some_iff {s : Text} {op : BinaryOp} :
    BinaryOp.ofSpelling? s = some op ↔ Operator op.level op s := by
  constructor
  · intro h
    have hs : op.spelling = s := by
      simpa using List.find?_some h
    exact hs ▸ operator_level_spelling op
  · intro h
    rw [← h.spelling]
    cases op <;> decide

theorem unaryOfSpelling?_eq_some_iff {s : Text} {op : UnaryOp} :
    UnaryOp.ofSpelling? s = some op ↔ PrefixOperator op s := by
  constructor
  · intro h
    have hs : op.spelling = s := by
      simpa using List.find?_some h
    exact hs ▸ prefixOperator_spelling op
  · rintro (_ | _ | _ | _) <;> decide

theorem mem_alternatives_iff {w s : Text} : (w, s) ∈ alternatives ↔ Alternative w s := by
  constructor
  · have hall : ∀ a ∈ alternatives, Alternative a.1 a.2 := by
      simp only [alternatives, List.map_cons, List.map_nil, List.forall_mem_cons]
      exact ⟨.and, .or, .bitand, .bitor, .xor, .not_eq, .not, .compl, List.forall_mem_nil _⟩
    exact hall (w, s)
  · rintro (_ | _ | _ | _ | _ | _ | _ | _) <;> decide

theorem lookup_alternatives_eq_some_iff {w s : Text} :
    alternatives.lookup w = some s ↔ Alternative w s := by
  constructor
  · intro h
    obtain ⟨l₁, l₂, heq, -⟩ := List.lookup_eq_some_iff.1 h
    rw [← mem_alternatives_iff, heq]
    exact List.mem_append_right l₁ List.mem_cons_self
  · rintro (_ | _ | _ | _ | _ | _ | _ | _) <;> decide

/-- The reader takes a token for the operator that it stands for in the grammar. -/
theorem operator?_eq_some_iff {s : Text} {t : Token} : operator? t = some s ↔ Stands s t := by
  constructor
  · intro h
    unfold operator? at h
    split at h
    · rename_i hk
      cases h
      exact .punctuator (by simp [Token.isPunct, hk])
    · rename_i hk
      exact .word (lookup_alternatives_eq_some_iff.1 h) (by simp [Token.isIdent, hk])
    · cases h
  · rintro (h | ⟨hw, h⟩)
    · simp only [Token.isPunct, Bool.and_eq_true, beq_iff_eq] at h
      simp only [operator?, h.1, h.2]
    · simp only [Token.isIdent, Bool.and_eq_true, beq_iff_eq] at h
      simp only [operator?, h.1, h.2, lookup_alternatives_eq_some_iff.2 hw]

theorem operator?_eq_none_iff {t : Token} (ht : t.kind = .identifier) :
    operator? t = none ↔ ∀ s, ¬Alternative t.text s := by
  simp only [operator?, ht, Option.eq_none_iff_forall_ne_some, ne_eq,
    lookup_alternatives_eq_some_iff]

theorem binaryOp?_eq_some_iff {t : Token} {op : BinaryOp} :
    binaryOp? t = some op ↔ ∃ s, Operator op.level op s ∧ Stands s t := by
  simp only [binaryOp?, Option.bind_eq_some_iff, operator?_eq_some_iff, ofSpelling?_eq_some_iff,
    and_comm]

theorem unaryOp?_eq_some_iff {t : Token} {op : UnaryOp} :
    unaryOp? t = some op ↔ ∃ s, PrefixOperator op s ∧ Stands s t := by
  simp only [unaryOp?, Option.bind_eq_some_iff, operator?_eq_some_iff,
    unaryOfSpelling?_eq_some_iff, and_comm]

/-- The tightest operators of the grammar are the tightest of the reader. -/
theorem level_le (op : BinaryOp) : op.level ≤ 10 := by
  cases op <;> decide

/-- No word is written for a punctuator that is no operator. -/
theorem stands_iff_isPunct {s : Text} (hs : ∀ a ∈ alternatives, a.2 ≠ s) (t : Token) :
    Stands s t ↔ t.isPunct s = true := by
  constructor
  · rintro (h | ⟨hw, -⟩)
    · exact h
    · exact absurd rfl (hs _ (mem_alternatives_iff.2 hw))
  · exact .punctuator

end Expression
end CPreprocessor

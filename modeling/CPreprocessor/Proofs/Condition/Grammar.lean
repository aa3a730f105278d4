import CPreprocessor.Condition.Expression

/-!
The grammar of conditions and the values of its trees. The operators, with their levels and
their spellings, are listed here, token lists are derived from a stratified grammar, and a
tree is evaluated by recursion with the functions that apply one operator. An operand that is
not taken contributes its signedness, which is found without evaluating it.
-/

namespace CPreprocessor
namespace Expression

/-- `Operator n op s` says that the binary operator `op` of the level `n` is written `s`. -/
inductive Operator : Nat → BinaryOp → Text → Prop where
  | or : Operator 1 .or (ascii "||")
  | and : Operator 2 .and (ascii "&&")
  | bitOr : Operator 3 .bitOr (ascii "|")
  | bitXor : Operator 4 .bitXor (ascii "^")
  | bitAnd : Operator 5 .bitAnd (ascii "&")
  | eq : Operator 6 .eq (ascii "==")
  | ne : Operator 6 .ne (ascii "!=")
  | lt : Operator 7 .lt (ascii "<")
  | gt : Operator 7 .gt (ascii ">")
  | le : Operator 7 .le (ascii "<=")
  | ge : Operator 7 .ge (ascii ">=")
  | shl : Operator 8 .shl (ascii "<<")
  | shr : Operator 8 .shr (ascii ">>")
  | add : Operator 9 .add (ascii "+")
  | sub : Operator 9 .sub (ascii "-")
  | mul : Operator 10 .mul (ascii "*")
  | div : Operator 10 .div (ascii "/")
  | rem : Operator 10 .rem (ascii "%")

/-- `PrefixOperator op s` says that the prefix operator `op` is written `s`. -/
inductive PrefixOperator : UnaryOp → Text → Prop where
  | plus : PrefixOperator .plus (ascii "+")
  | minus : PrefixOperator .minus (ascii "-")
  | complement : PrefixOperator .complement (ascii "~")
  | negation : PrefixOperator .negation (ascii "!")

/-- `Alternative w s` says that the word `w` may be written for the punctuator `s`. -/
inductive Alternative : Text → Text → Prop where
  | and : Alternative (ascii "and") (ascii "&&")
  | or : Alternative (ascii "or") (ascii "||")
  | bitand : Alternative (ascii "bitand") (ascii "&")
  | bitor : Alternative (ascii "bitor") (ascii "|")
  | xor : Alternative (ascii "xor") (ascii "^")
  | not_eq : Alternative (ascii "not_eq") (ascii "!=")
  | not : Alternative (ascii "not") (ascii "!")
  | compl : Alternative (ascii "compl") (ascii "~")

/-- The token is the operator written `s`, as a punctuator or as an alternative word. -/
inductive Stands (s : Text) (t : Token) : Prop where
  | punctuator : t.isPunct s = true → Stands s t
  | word {w} : Alternative w s → t.isIdent w = true → Stands s t

/-- The tree of an expression. Parentheses leave no trace in it. -/
inductive Tree where
  | number (t : Token)
  | character (t : Token)
  | name (t : Token)
  | defined (n : Token)
  | unary (op : UnaryOp) (e : Tree)
  | binary (op : BinaryOp) (l r : Tree)
  | conditional (c a b : Tree)
  | comma (l r : Tree)
deriving DecidableEq, Repr

/-- The strata of the grammar. -/
inductive Rank where
  | comma
  | conditional
  | binary (level : Nat)
  | unary
  | primary
deriving DecidableEq, Repr

/-- `Yields k e ts` says that the tree `e` of rank `k` has the tokens `ts`. -/
inductive Yields : Rank → Tree → List Token → Prop where
  | last {e ts} : Yields .conditional e ts → Yields .comma e ts
  | list {l r us vs k} : Yields .comma l us → k.isPunct (ascii ",") = true →
      Yields .conditional r vs → Yields .comma (.comma l r) (us ++ k :: vs)
  | single {e ts} : Yields (.binary 1) e ts → Yields .conditional e ts
  | choice {c a b us vs ws q k} : Yields (.binary 1) c us → q.isPunct (ascii "?") = true →
      Yields .comma a vs → k.isPunct (ascii ":") = true → Yields .conditional b ws →
      Yields .conditional (.conditional c a b) (us ++ q :: (vs ++ k :: ws))
  | operand {n e ts} : n ≤ 10 → Yields (.binary (n + 1)) e ts → Yields (.binary n) e ts
  | operation {n op s l r us vs k} : Operator n op s → Yields (.binary n) l us → Stands s k →
      Yields (.binary (n + 1)) r vs → Yields (.binary n) (.binary op l r) (us ++ k :: vs)
  | tightest {n e ts} : 10 < n → Yields .unary e ts → Yields (.binary n) e ts
  | plain {e ts} : Yields .primary e ts → Yields .unary e ts
  | applied {op s e k ts} : PrefixOperator op s → Stands s k → Yields .unary e ts →
      Yields .unary (.unary op e) (k :: ts)
  | number {t} : t.kind = .number → Yields .primary (.number t) [t]
  | character {t} : t.kind = .character → Yields .primary (.character t) [t]
  | name {t} : t.kind = .identifier → (∀ s, ¬Alternative t.text s) →
      t.text ≠ ascii "defined" → Yields .primary (.name t) [t]
  | defined {d n} : d.isIdent (ascii "defined") = true → n.kind = .identifier →
      Yields .primary (.defined n) [d, n]
  | definedInside {d o n c} : d.isIdent (ascii "defined") = true →
      o.isPunct (ascii "(") = true → n.kind = .identifier → c.isPunct (ascii ")") = true →
      Yields .primary (.defined n) [d, o, n, c]
  | inside {o e ts c} : o.isPunct (ascii "(") = true → Yields .comma e ts →
      c.isPunct (ascii ")") = true → Yields .primary e (o :: (ts ++ [c]))

end Expression

/-- Whether the result is unsigned, from the same of the operands. -/
def BinaryOp.joins : BinaryOp → Bool → Bool → Bool
  | or, _, _ | and, _, _ => false
  | eq, _, _ | ne, _, _ | lt, _, _ | gt, _, _ | le, _, _ | ge, _, _ => false
  | shl, l, _ | shr, l, _ => l
  | bitOr, l, r | bitXor, l, r | bitAnd, l, r => l || r
  | add, l, r | sub, l, r | mul, l, r | div, l, r | rem, l, r => l || r

namespace Expression
namespace Tree

/-- Whether the value is unsigned. There is no answer if a constant in the tree is
malformed. -/
def sign : Tree → Option Bool
  | number t => (Constant.number t).toOption.map Value.unsigned
  | character t => (Constant.character t).toOption.map Value.unsigned
  | name _ | defined _ => some false
  | unary .negation e => (sign e).map fun _ => false
  | unary _ e => sign e
  | binary op l r =>
    (sign l).bind fun s => (sign r).map (op.joins s)
  | conditional c a b =>
    (sign c).bind fun _ => (sign a).bind fun s => (sign b).map (s || ·)
  | comma l r => (sign l).bind fun _ => sign r

/-- The value in a table, or nothing if a constant is malformed or an operation that is
taken fails. A logical operator takes its right operand only if the left one does not settle
it. Names other than `true` count as zero. -/
def eval (T : Table) : Tree → Option Value
  | number t => (Constant.number t).toOption
  | character t => (Constant.character t).toOption
  | name t => some (.ofBool (t.text == ascii "true"))
  | defined n => some (.ofBool (T.isDefined n.text))
  | unary op e => (eval T e).map op.apply
  | binary .or l r =>
    (eval T l).bind fun x =>
      if x.isTrue then r.sign.map fun _ => .ofBool true
      else (eval T r).map fun y => .ofBool y.isTrue
  | binary .and l r =>
    (eval T l).bind fun x =>
      if x.isTrue then (eval T r).map fun y => .ofBool y.isTrue
      else r.sign.map fun _ => .ofBool false
  | binary op l r =>
    (eval T l).bind fun x => (eval T r).bind fun y => (x.apply op true {} y).toOption
  | conditional c a b =>
    (eval T c).bind fun x =>
      if x.isTrue then
        (eval T a).bind fun y => b.sign.map fun s => { y with unsigned := y.unsigned || s }
      else
        a.sign.bind fun s => (eval T b).map fun y => { y with unsigned := s || y.unsigned }
  | comma l r => (eval T l).bind fun _ => eval T r

end Tree
end Expression
end CPreprocessor

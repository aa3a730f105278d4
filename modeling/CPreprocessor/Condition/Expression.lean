import CPreprocessor.Condition.Constant
import CPreprocessor.Macro.Table

/-!
The expressions of conditions, evaluated while they are read. There are functions for comma
lists, the conditional operator, prefix operators and primaries. The binary operators of all
ten levels are read by one function, which climbs: it goes on while the next operator binds at
least as tightly as it is told. An operand that does not count, such as the right one of
`0 && x`, is read like any other but cannot fail in arithmetic.
-/

namespace CPreprocessor
namespace Expression

/-- What reading an expression needs besides its tokens: the macros in force, and the
position at which a missing token is reported. -/
structure Env where
  table : Table
  stop : Pos

/-- The spellings that stand for punctuators. -/
def alternatives : List (Text × Text) :=
  [("and", "&&"), ("or", "||"), ("bitand", "&"), ("bitor", "|"), ("xor", "^"),
    ("not_eq", "!="), ("not", "!"), ("compl", "~")].map fun (a, b) => (ascii a, ascii b)

/-- The operator spelling of a token, if it can be one. -/
def operator? (t : Token) : Option Text :=
  match t.kind with
  | .punctuator => some t.text
  | .identifier => alternatives.lookup t.text
  | _ => none

def binaryOp? (t : Token) : Option BinaryOp :=
  (operator? t).bind BinaryOp.ofSpelling?

def unaryOp? (t : Token) : Option UnaryOp :=
  (operator? t).bind UnaryOp.ofSpelling?

/-- The operand of `defined`, which is a name, alone or in parentheses: whether it is
defined, and the tokens after it. -/
def nameOperand (table : Table) (pos : Pos) (ts : List Token) :
    Except Error (Bool × List Token) :=
  let noName : Except Error (Bool × List Token) := .error { fault := .definedWithoutName, pos }
  let unclosed : Except Error (Bool × List Token) := .error { fault := .unclosedDefined, pos }
  match ts.dropWhile Token.isSpace with
  | [] => noName
  | t :: rest =>
    if t.isPunct (ascii "(") then
      match rest.dropWhile Token.isSpace with
      | [] => noName
      | n :: rest =>
        if n.kind ≠ .identifier then noName
        else match rest.dropWhile Token.isSpace with
          | [] => unclosed
          | c :: rest =>
            if c.isPunct (ascii ")") then .ok (table.isDefined n.text, rest) else unclosed
    else if t.kind = .identifier then .ok (table.isDefined t.text, rest)
    else noName

theorem length_lt_of_dropWhile {p : Token → Bool} {ts rest : List Token} {t : Token}
    (h : ts.dropWhile p = t :: rest) : rest.length < ts.length := by
  have := (List.dropWhile_suffix (l := ts) p).length_le
  rw [h] at this
  exact this

theorem length_lt_of_nameOperand {table : Table} {pos : Pos} {ts rest : List Token}
    {b : Bool} (h : nameOperand table pos ts = .ok (b, rest)) :
    rest.length < ts.length := by
  unfold nameOperand at h
  simp only at h
  split at h
  · contradiction
  · rename_i h₁
    have := length_lt_of_dropWhile h₁
    split at h
    · split at h
      · contradiction
      · rename_i h₂
        have := length_lt_of_dropWhile h₂
        split at h
        · contradiction
        · split at h
          · contradiction
          · rename_i h₃
            have := length_lt_of_dropWhile h₃
            split at h
            · cases h; omega
            · contradiction
    · split at h
      · cases h; omega
      · contradiction

/-- Takes the closing token `c`, which must come next. -/
def expect (env : Env) (c : Closer) (ts : List Token) :
    Except Error { rest : List Token // rest.length < ts.length } :=
  match ts with
  | [] => .error { fault := .missingCloser c none, pos := env.stop }
  | t :: rest =>
    if operator? t = some c.spelling then .ok ⟨rest, by simp⟩
    else .error { fault := .missingCloser c (some t.text), pos := t.pos }

/-- The value of a part of an expression and the tokens after it. -/
abbrev Result (ts : List Token) :=
  Except Error (Value × { rest : List Token // rest.length < ts.length })

/-- As `Result`, for a part that may be empty. -/
abbrev TailResult (ts : List Token) :=
  Except Error (Value × { rest : List Token // rest.length ≤ ts.length })

/-- A conditional operation takes the value of one branch and is unsigned if either is. -/
def choose (c t f : Value) : Value :=
  { word := if c.isTrue then t.word else f.word, unsigned := t.unsigned || f.unsigned }

mutual

/-- Expressions separated by commas; the last one is the value. -/
def comma (env : Env) (live : Bool) (ts : List Token) : Result ts := do
  let (v, ⟨rest, h⟩) ← conditional env live ts
  let (v, ⟨rest', h'⟩) ← commaTail env live v rest
  .ok (v, ⟨rest', by omega⟩)
termination_by (ts.length, 3)

/-- What may follow an expression in a comma list. -/
def commaTail (env : Env) (live : Bool) (v : Value) (ts : List Token) : TailResult ts :=
  match ts with
  | [] => .ok (v, ⟨[], by simp⟩)
  | t :: rest =>
    if operator? t = some (ascii ",") then do
      let (v, ⟨rest', h⟩) ← conditional env live rest
      let (v, ⟨rest'', h'⟩) ← commaTail env live v rest'
      .ok (v, ⟨rest'', by simp only [List.length_cons]; omega⟩)
    else .ok (v, ⟨t :: rest, by simp⟩)
termination_by (ts.length, 0)
decreasing_by
  · exact Prod.Lex.left _ _ (by simp)
  · exact Prod.Lex.left _ _ (by simp only [List.length_cons]; omega)

/-- A binary expression, or a choice between two branches of which only one counts. -/
def conditional (env : Env) (live : Bool) (ts : List Token) : Result ts := do
  let (c, ⟨rest, h⟩) ← binary env live 1 ts
  match rest, h with
  | [], h => .ok (c, ⟨[], h⟩)
  | q :: rest₁, h =>
    if operator? q = some (ascii "?") then do
      let (t, ⟨rest₂, h₂⟩) ← comma env (live && c.isTrue) rest₁
      let ⟨rest₃, h₃⟩ ← expect env .colon rest₂
      let (f, ⟨rest₄, h₄⟩) ← conditional env (live && !c.isTrue) rest₃
      .ok (choose c t f, ⟨rest₄, by simp only [List.length_cons] at h; omega⟩)
    else .ok (c, ⟨q :: rest₁, h⟩)
termination_by (ts.length, 2)
decreasing_by
  · exact Prod.Lex.right _ (by omega)
  · exact Prod.Lex.left _ _ (by simp only [List.length_cons] at h; omega)
  · exact Prod.Lex.left _ _ (by simp only [List.length_cons] at h; omega)

/-- An operand and what the operators of at least the level `min` join to it. -/
def binary (env : Env) (live : Bool) (min : Nat) (ts : List Token) : Result ts := do
  let (l, ⟨rest, h⟩) ← unary env live ts
  let (v, ⟨rest', h'⟩) ← climb env live min l rest
  .ok (v, ⟨rest', by omega⟩)
termination_by (ts.length, 1)

/-- Applies the operators of at least the level `min` that follow the operand `l`, from the
left. The right operand of each takes what binds tighter than the operator. -/
def climb (env : Env) (live : Bool) (min : Nat) (l : Value) (ts : List Token) :
    TailResult ts :=
  match ts with
  | [] => .ok (l, ⟨[], by simp⟩)
  | t :: rest =>
    match binaryOp? t with
    | none => .ok (l, ⟨t :: rest, by simp⟩)
    | some op =>
      if op.level < min then .ok (l, ⟨t :: rest, by simp⟩)
      else do
        let (r, ⟨rest', h⟩) ← binary env (live && op.needsRight l) (op.level + 1) rest
        let v ← l.apply op live t.pos r
        let (v, ⟨rest'', h'⟩) ← climb env live min v rest'
        .ok (v, ⟨rest'', by simp only [List.length_cons]; omega⟩)
termination_by (ts.length, 0)
decreasing_by
  · exact Prod.Lex.left _ _ (by simp)
  · exact Prod.Lex.left _ _ (by simp only [List.length_cons]; omega)

/-- Prefix operators and the primary they apply to. -/
def unary (env : Env) (live : Bool) (ts : List Token) : Result ts :=
  match ts with
  | [] => .error { fault := .missingValue, pos := env.stop }
  | t :: rest =>
    match unaryOp? t with
    | some op => do
      let (v, ⟨rest', h⟩) ← unary env live rest
      .ok (op.apply v, ⟨rest', by simp only [List.length_cons]; omega⟩)
    | none => primary env live t rest
termination_by (ts.length, 0)
decreasing_by
  · exact Prod.Lex.left _ _ (by simp)
  · exact Prod.Lex.left _ _ (by simp)

/-- A constant, a name, `defined` with its operand, or an expression in parentheses. Names
that are not macros count as zero, `true` as one. -/
def primary (env : Env) (live : Bool) (t : Token) (ts : List Token) : Result (t :: ts) :=
  match t.kind with
  | .number => do
    let v ← Constant.number t
    .ok (v, ⟨ts, by simp⟩)
  | .character => do
    let v ← Constant.character t
    .ok (v, ⟨ts, by simp⟩)
  | .identifier =>
    if (operator? t).isSome then
      .error { fault := .tokenInExpression t.text, pos := t.pos }
    else if t.text = ascii "true" then .ok (.ofBool true, ⟨ts, by simp⟩)
    else if t.text = Vocabulary.definedName then
      match h : nameOperand env.table t.pos ts with
      | .error e => .error e
      | .ok (b, rest) =>
        .ok (.ofBool b, ⟨rest, by
          have := length_lt_of_nameOperand h
          simp only [List.length_cons]
          omega⟩)
    else .ok (.zero, ⟨ts, by simp⟩)
  | .punctuator =>
    if t.text = ascii "(" then do
      let (v, ⟨rest, h⟩) ← comma env live ts
      let ⟨rest', h'⟩ ← expect env .parenthesis rest
      .ok (v, ⟨rest', by simp only [List.length_cons]; omega⟩)
    else .error { fault := .tokenInExpression t.text, pos := t.pos }
  | _ => .error { fault := .tokenInExpression t.text, pos := t.pos }
termination_by (ts.length, 4)
decreasing_by
  · exact Prod.Lex.right _ (by omega)

end

/-- The value of a whole token list that is one expression. -/
def evaluate (env : Env) (ts : List Token) : Except Error Value := do
  let (v, ⟨rest, _⟩) ← comma env true ts
  match rest with
  | [] => .ok v
  | t :: _ => .error { fault := .missingOperator t.text, pos := t.pos }

end Expression
end CPreprocessor

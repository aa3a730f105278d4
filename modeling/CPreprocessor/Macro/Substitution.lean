import CPreprocessor.Lexer
import CPreprocessor.Macro

/-!
Substitution makes the replacement of one macro invocation. Parameters give way to their
arguments, `#` makes strings and `##` joins tokens, and white space between tokens is
reduced to single spaces.
-/

namespace CPreprocessor

/-- An argument as written and after its own macro expansion. -/
structure Argument where
  written : List Token
  expanded : List Token
deriving DecidableEq, Repr

namespace Substitution

/-- The parameters of an invocation with their arguments. -/
abbrev Bindings := List (Text × Argument)

/-- The argument of the parameter that `t` names. -/
def argument? (args : Bindings) (t : Token) : Option Argument :=
  if t.kind = .identifier then args.lookup t.text else none

/-- The spelling of a token inside a string: quotes and backslashes of literals are
escaped. -/
def escaped (t : Token) : Text :=
  if t.kind = .string ∨ t.kind = .character then
    t.text.flatMap fun b =>
      if b = Byte.quote ∨ b = Byte.backslash then [Byte.backslash, b] else [b]
  else t.text

/-- The contents of the string that spells `ts`. `space` tells whether white space came just
before, `started` whether anything has been written. -/
def stringBody (space started : Bool) : List Token → Text
  | [] => []
  | t :: ts =>
    if t.isSpace then stringBody true started ts
    else
      let gap := if space && started then [Byte.space] else []
      gap ++ escaped t ++ stringBody false (started || escaped t != []) ts

/-- The string literal that spells `ts`, placed at `pos`. -/
def stringOf (pos : Pos) (ts : List Token) : Token :=
  { kind := .string
    text := Byte.quote :: stringBody false false ts ++ [Byte.quote]
    pos }

/-- The single token that the spellings of two tokens form together. -/
def paste (left right : Token) : Except Error Token :=
  match tokenize (left.text ++ right.text) with
  | ⟨[t], none⟩ =>
    if t.kind = .whitespace ∨ t.kind = .invalid then
      .error { fault := .badPaste left.text right.text, pos := left.pos }
    else .ok { t with pos := left.pos, length := 0 }
  | _ => .error { fault := .badPaste left.text right.text, pos := left.pos }

/-- An element of a body after parameter substitution: the joining operator, or tokens and
whether white space precedes them. -/
inductive Element where
  | paste
  | tokens (space : Bool) (ts : List Token)
deriving DecidableEq, Repr

def Element.toTokens : Element → List Token
  | paste => []
  | tokens _ ts => ts

/-- Whether the joining operator comes next, white space aside. -/
def beforePaste (ts : List Token) : Bool :=
  (ts.dropWhile Token.isSpace).head?.any Token.isPaste

/-- The argument that a `#` in a function-like macro turns into a string, and the body after
it. -/
def stringized? (m : Macro) (args : Bindings) (t : Token) (ts : List Token) :
    Option (Argument × List Token) :=
  if m.functionLike && t.isHash then
    match ts.dropWhile Token.isSpace with
    | p :: rest => (argument? args p).map fun a => (a, rest)
    | [] => none
  else none

theorem length_of_stringized? {m : Macro} {args : Bindings} {t : Token} {ts rest : List Token}
    {a : Argument} (h : stringized? m args t ts = some (a, rest)) :
    rest.length < ts.length := by
  unfold stringized? at h
  split at h
  · split at h
    · rename_i p r hp
      obtain ⟨b, _, hb⟩ := Option.map_eq_some_iff.1 h
      cases hb
      have := (List.dropWhile_suffix (l := ts) Token.isSpace).length_le
      rw [hp] at this
      exact this
    · contradiction
  · contradiction

/-- The elements of a body. `space` tells whether white space came just before and `pasted`
whether the last other token was the joining operator, next to which arguments stay as
written. -/
def elements (m : Macro) (args : Bindings) (space pasted : Bool) (body : List Token) :
    List Element :=
  match body with
  | [] => []
  | t :: ts =>
    if t.isSpace then elements m args true pasted ts
    else if t.isPaste then .paste :: elements m args false true ts
    else match _h : stringized? m args t ts with
      | some (a, rest) =>
        .tokens space [stringOf t.pos a.written] :: elements m args false false rest
      | none =>
        let ts' := match argument? args t with
          | some a => if pasted || beforePaste ts then a.written else a.expanded
          | none => [t]
        .tokens space ts' :: elements m args false false ts
termination_by body.length
decreasing_by
  · simp
  · simp
  · have := length_of_stringized? _h; simp; omega
  · simp

/-- A replacement under construction: the tokens so far, the latest first, whether a space
is due before the next one, and whether the last element came out empty. -/
structure Draft where
  done : List Token := []
  space : Bool := false
  blank : Bool := true
deriving DecidableEq, Repr

namespace Draft

/-- Adds one token. White space only makes a space due; one in front of everything is
dropped. -/
def add (d : Draft) (t : Token) : Draft :=
  if t.isSpace then { d with space := true }
  else
    let gap := if d.space && d.done != [] then [Token.space t.pos] else []
    { done := t :: gap ++ d.done, space := false, blank := false }

/-- Adds the tokens of one element. -/
def addAll (d : Draft) (ts : List Token) : Draft :=
  ts.foldl add { d with blank := true }

/-- Joins an element to the last one. An empty operand leaves the other as it is. -/
def join (d : Draft) (ts : List Token) : Except Error Draft :=
  if d.blank then .ok (d.addAll ts)
  else match ts, d.done with
    | t :: ts, last :: done => do
      let joined ← paste last t
      .ok { ts.foldl add { d with done := joined :: done, space := false } with
        blank := false }
    | _, _ => .ok d

end Draft

/-- Puts the elements of a body together. -/
def assemble (d : Draft) : List Element → Except Error Draft
  | [] => .ok d
  | .tokens space ts :: ps => assemble ({ d with space := d.space || space }.addAll ts) ps
  | [.paste] => .ok d
  | .paste :: p :: ps => do assemble (← d.join p.toTokens) ps

/-- The replacement of an invocation of `m`. -/
def substitute (m : Macro) (args : List Argument) : Except Error (List Token) := do
  let d ← assemble {} (elements m (m.params.zip args) false false m.body)
  .ok d.done.reverse

end Substitution
end CPreprocessor

import CPreprocessor.Macro
import CPreprocessor.TokenStream

/-!
The arguments of a macro invocation. They are read from a stream after the opening
parenthesis, separated by the commas outside inner parentheses, and then assigned to the
parameters.
-/

namespace CPreprocessor
namespace Arguments

open TokenStream (next size)

variable {ρ : Type} [TokenStream ρ]

/-- Puts a token in front of the first argument. -/
def consFirst (t : Token) : List (List Token) → List (List Token)
  | [] => [[t]]
  | a :: as => (t :: a) :: as

/-- Reads arguments through the closing parenthesis; `depth` inner parentheses are open.
`name` is the macro name, at which a missing closing parenthesis is reported. -/
def collect (name : Token) (depth : Nat) (r : ρ) : Except Error (List (List Token)) × ρ :=
  match _h : next r with
  | .stop .eof r => (.error { fault := .unterminatedArguments name.text, pos := name.pos }, r)
  | .stop (.fault e) r => (.error e, r)
  | .token t r =>
    if t.isPunct (ascii "(") then
      let (args, r) := collect name (depth + 1) r
      (args.map (consFirst t), r)
    else if t.isPunct (ascii ")") then
      if depth = 0 then (.ok [[]], r)
      else
        let (args, r) := collect name (depth - 1) r
        (args.map (consFirst t), r)
    else if t.isPunct (ascii ",") && depth = 0 then
      let (args, r) := collect name depth r
      (args.map ([] :: ·), r)
    else
      let (args, r) := collect name depth r
      (args.map (consFirst t), r)
termination_by size r
decreasing_by all_goals exact TokenStream.size_lt_of_next _h

/-- The comma between two variable arguments, placed at the macro name. -/
def comma (pos : Pos) : Token :=
  { kind := .punctuator, text := ascii ",", pos }

/-- The variable arguments as one, with commas between them. -/
def joined (pos : Pos) : List (List Token) → List Token
  | [] => []
  | [a] => a
  | a :: as => a ++ comma pos :: joined pos as

/-- One argument per parameter, if their number fits. -/
def assign (m : Macro) (name : Token) (raw : List (List Token)) :
    Except Error (List (List Token)) :=
  let given := raw.length
  let takes := m.params.length
  if takes = 0 then
    if raw = [[]] then .ok []
    else .error { fault := .tooManyArguments m.name given 0, pos := name.pos }
  else if m.isVariadic then
    if given < takes - 1 then
      .error { fault := .tooFewVariadicArguments m.name (takes - 1) given, pos := name.pos }
    else .ok (raw.take (takes - 1) ++ [joined name.pos (raw.drop (takes - 1))])
  else if given < takes then
    .error { fault := .tooFewArguments m.name takes given, pos := name.pos }
  else if takes < given then
    .error { fault := .tooManyArguments m.name given takes, pos := name.pos }
  else .ok raw

theorem size_le_of_collect (name : Token) (depth : Nat) (r : ρ) :
    size (collect name depth r).2 ≤ size r := by
  fun_induction collect name depth r with
  | case1 _ r r' h | case2 _ r _ r' h => simp [TokenStream.size_of_stop h]
  | case3 _ r t r' h _ args r'' hc ih | case5 _ r t r' h _ _ _ args r'' hc ih
  | case6 _ r t r' h _ _ _ args r'' hc ih | case7 _ r t r' h _ _ _ args r'' hc ih =>
    have := TokenStream.size_lt_of_next h
    simp only [hc] at ih
    simp only
    omega
  | case4 r t r' h => exact Nat.le_of_lt (TokenStream.size_lt_of_next h)

end Arguments
end CPreprocessor

import CPreprocessor.Source.Position
import CPreprocessor.Text.Quoted
import CPreprocessor.Token.Vocabulary

/-!
Preprocessing tokens. White space is a token too: comments and runs of blanks and line
ends are one token, which says whether it ends a line.
-/

namespace CPreprocessor

/-- The category of a preprocessing token. -/
inductive Kind where
  /-- A kind that no scanner assigns. -/
  | unclassified
  | whitespace
  | identifier
  /-- A preprocessing number, which need not be a numeral of the language. -/
  | number
  | character
  | string
  | punctuator
  /-- Text that fits no other kind: a byte that starts no character, or an unclosed literal
  in skipped text. -/
  | invalid
deriving DecidableEq, Repr, Inhabited

namespace Kind

/-- The kinds in the order of their numbers, from zero. -/
def all : List Kind :=
  [unclassified, whitespace, identifier, number, character, string, punctuator, invalid]

def numberName (n : Int) : Text :=
  ascii "Kind(" ++ Text.signedDecimal n ++ ascii ")"

def name : Kind → Text
  | unclassified => numberName 0
  | whitespace => ascii "whitespace"
  | identifier => ascii "identifier"
  | number => ascii "number"
  | character => ascii "character"
  | string => ascii "string"
  | punctuator => ascii "punctuator"
  | invalid => ascii "error"

/-- The name of the kind with number `n`, or a name made of the number. -/
def nameOfNumber : Int → Text
  | .ofNat n => match all[n]? with
    | some k => k.name
    | none => numberName n
  | .negSucc n => numberName (.negSucc n)

end Kind

/-- A preprocessing token. `length` counts the source bytes it spans, line joins included;
tokens made by macro expansion span none. -/
structure Token where
  kind : Kind
  text : Text
  pos : Pos := {}
  length : Int := 0
  newline : Bool := false
deriving DecidableEq, Repr, Inhabited

namespace Token

/-- Whether `t` is the punctuator with the given spelling. -/
def isPunct (text : Text) (t : Token) : Bool :=
  t.kind == .punctuator && t.text == text

/-- Whether `t` is the identifier with the given name. -/
def isIdent (name : Text) (t : Token) : Bool :=
  t.kind == .identifier && t.text == name

def isSpace (t : Token) : Bool :=
  t.kind == .whitespace

theorem isPunct_eq_false {t : Token} {s s' : Text} (ht : t.isPunct s = true) (h : s ≠ s') :
    t.isPunct s' = false := by
  simp only [isPunct, Bool.and_eq_true, beq_iff_eq] at ht
  simp [isPunct, ht.1, ht.2, h]

theorem isSpace_of_isPunct {t : Token} {s : Text} (ht : t.isPunct s = true) :
    t.isSpace = false := by
  simp only [isPunct, Bool.and_eq_true, beq_iff_eq] at ht
  simp [isSpace, ht.1]

/-- Whether `t` is white space that ends a line. -/
def isLineEnd (t : Token) : Bool :=
  t.isSpace && t.newline

/-- White space that stays on its line. -/
def isGap (t : Token) : Bool :=
  t.isSpace && !t.newline

/-- Whether `t` opens a directive when it comes first on a line; inside the body of a
function-like macro it makes a string of the parameter after it. -/
def isHash (t : Token) : Bool :=
  t.isPunct (ascii "#") || t.isPunct (ascii "%:")

/-- Whether `t` joins its neighbours inside a macro body. -/
def isPaste (t : Token) : Bool :=
  t.isPunct (ascii "##") || t.isPunct (ascii "%:%:")

/-- A single space made at `pos`. -/
def space (pos : Pos) : Token :=
  { kind := .whitespace, text := [Byte.space], pos }

/-- The kind and the quoted spelling. -/
def describe (t : Token) : Text :=
  t.kind.name ++ ascii " " ++ Text.quoted t.text

/-- How a message about an unexpected token refers to it. -/
def found (t : Token) : Text :=
  if t.isLineEnd then ascii "newline"
  else if t.isSpace then ascii "whitespace"
  else Text.quoted t.text

/-- Drops white space from both ends. -/
def trim (ts : List Token) : List Token :=
  ((ts.dropWhile isSpace).reverse.dropWhile isSpace).reverse

theorem head?_dropWhile_isSpace {ts : List Token} {t : Token}
    (h : (ts.dropWhile isSpace).head? = some t) : t.isSpace = false := by
  have := List.head?_dropWhile_not isSpace ts
  rw [h] at this
  exact this

/-- What is trimmed off is white space in front and behind. -/
theorem exists_eq_append_trim (ts : List Token) :
    ∃ us vs, ts = us ++ (trim ts ++ vs) ∧ (∀ t ∈ us, t.isSpace = true) ∧
      ∀ t ∈ vs, t.isSpace = true := by
  refine ⟨ts.takeWhile isSpace, ((ts.dropWhile isSpace).reverse.takeWhile isSpace).reverse,
    ?_, List.all_eq_true.1 List.all_takeWhile,
    fun t ht => List.all_eq_true.1 List.all_takeWhile t (List.mem_reverse.1 ht)⟩
  rw [trim, ← List.reverse_append, List.takeWhile_append_dropWhile, List.reverse_reverse,
    List.takeWhile_append_dropWhile]

theorem all_trim {P : Token → Prop} {ts : List Token} (h : ∀ t ∈ ts, P t) :
    ∀ t ∈ trim ts, P t := by
  obtain ⟨us, vs, heq, -, -⟩ := exists_eq_append_trim ts
  intro t ht
  exact h t (heq ▸ List.mem_append_right us (List.mem_append_left vs ht))

theorem mem_trim {ts : List Token} {t : Token} (ht : t ∈ ts) (hs : t.isSpace = false) :
    t ∈ trim ts := by
  obtain ⟨us, vs, heq, hus, hvs⟩ := exists_eq_append_trim ts
  rw [heq, List.mem_append, List.mem_append] at ht
  rcases ht with ht | ht | ht
  · simp [hus t ht] at hs
  · exact ht
  · simp [hvs t ht] at hs

/-- What is left does not start with white space. -/
theorem head?_trim {ts : List Token} {t : Token} (h : (trim ts).head? = some t) :
    t.isSpace = false := by
  rw [trim, List.head?_reverse] at h
  obtain ⟨us, hus⟩ := List.dropWhile_suffix (l := (ts.dropWhile isSpace).reverse) isSpace
  have hhead : (ts.dropWhile isSpace).head? = some t := by
    rw [← List.getLast?_reverse, ← hus, List.getLast?_append, h]
    rfl
  exact head?_dropWhile_isSpace hhead

/-- What is left does not end with white space. -/
theorem getLast?_trim {ts : List Token} {t : Token} (h : (trim ts).getLast? = some t) :
    t.isSpace = false := by
  rw [trim, List.getLast?_reverse] at h
  exact head?_dropWhile_isSpace h

/-- The spellings of the tokens one after the other. -/
def spelling (ts : List Token) : Text :=
  ts.flatMap text

/-- The tokens that are not white space. -/
def solid (ts : List Token) : List Token :=
  ts.filter fun t => !t.isSpace

theorem solid_append (ts us : List Token) : solid (ts ++ us) = solid ts ++ solid us :=
  List.filter_append ts us

theorem solid_cons_space {t : Token} (h : t.isSpace = true) (ts : List Token) :
    solid (t :: ts) = solid ts := by
  simp [solid, h]

theorem solid_cons {t : Token} (h : t.isSpace = false) (ts : List Token) :
    solid (t :: ts) = t :: solid ts := by
  simp [solid, h]

end Token
end CPreprocessor

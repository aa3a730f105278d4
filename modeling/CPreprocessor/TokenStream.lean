import CPreprocessor.TokenStream.Source

/-!
Streams are sources to which tokens can be given back. Every stream has a content, the
finite list of tokens it will hand out and the end after them; reading takes tokens off
its front and giving back puts them there. The reading operations of the preprocessor are
defined here once, for every stream.
-/

namespace CPreprocessor

/-- A token sequence that can be read and given back to. -/
class TokenStream (ρ : Type) where
  next : ρ → Pull ρ
  /-- Puts tokens in front, the first of the list to be read first. -/
  unread : List Token → ρ → ρ
  /-- The tokens to be read and the end after them. -/
  content : ρ → List Token × End
  content_of_token : ∀ {r r' : ρ} {t : Token}, next r = .token t r' →
    content r = (t :: (content r').1, (content r').2)
  content_of_stop : ∀ {r r' : ρ} {e : End}, next r = .stop e r' →
    content r = ([], e) ∧ content r' = ([], e)
  content_unread : ∀ (ts : List Token) (r : ρ),
    content (unread ts r) = (ts ++ (content r).1, (content r).2)

/-- What reading a stream gave: tokens, and the error after them if one occurred. -/
structure Output where
  tokens : List Token := []
  error : Option Error := none
deriving DecidableEq, Repr

namespace Output

/-- Tokens put in front of an output. -/
def prepend (ts : List Token) (out : Output) : Output :=
  { out with tokens := ts ++ out.tokens }

end Output

namespace TokenStream

variable {ρ : Type} [TokenStream ρ]

/-- The number of tokens to be read. -/
def size (r : ρ) : Nat :=
  (content r).1.length

theorem size_of_token {r r' : ρ} {t : Token} (h : next r = .token t r') :
    size r = size r' + 1 := by
  simp [size, content_of_token h]

theorem size_lt_of_next {r r' : ρ} {t : Token} (h : next r = .token t r') :
    size r' < size r := by
  simp [size_of_token h]

theorem size_of_stop {r r' : ρ} {e : End} (h : next r = .stop e r') : size r' = size r := by
  simp [size, content_of_stop h]

@[simp] theorem size_unread (ts : List Token) (r : ρ) :
    size (unread ts r) = ts.length + size r := by
  simp [size, content_unread]

/-- The next token, which stays in front. -/
def peek (r : ρ) : Pull ρ :=
  match next r with
  | .token t r => .token t (unread [t] r)
  | .stop e r => .stop e r

/-- Whether the stream is exhausted. An error that lies returned is still to be reported, so a
stream that ends with one is not. -/
def finished (r : ρ) : Bool × ρ :=
  match peek r with
  | .stop .eof r => (true, r)
  | .token _ r | .stop (.fault _) r => (false, r)

/-- Reads to the end. -/
def drain (r : ρ) : Output × ρ :=
  match _h : next r with
  | .token t r =>
    let (out, r) := drain r
    (out.prepend [t], r)
  | .stop e r => (⟨[], e.error?⟩, r)
termination_by size r
decreasing_by exact size_lt_of_next _h

/-- Takes white space off the front. Unless `newline` is set it stops in front of white
space that ends a line. -/
def takeSpace (newline : Bool) (r : ρ) : Output × ρ :=
  match _h : next r with
  | .token t r =>
    if t.isSpace && (newline || !t.newline) then
      let (out, r) := takeSpace newline r
      (out.prepend [t], r)
    else ({}, unread [t] r)
  | .stop e r => (⟨[], e.error?⟩, r)
termination_by size r
decreasing_by exact size_lt_of_next _h

/-- Skipping white space loses nothing: the tokens taken and those left are the stream. -/
theorem size_takeSpace (newline : Bool) (r : ρ) :
    (takeSpace newline r).1.tokens.length + size (takeSpace newline r).2 = size r := by
  fun_induction takeSpace newline r with
  | case1 r t r' h _ out r'' hs ih =>
    simp only [hs] at ih
    simp only [Output.prepend, List.length_append, List.length_cons, List.length_nil]
    have := size_of_token h
    omega
  | case2 r t r' h _ => simp [size_of_token h, Nat.add_comm]
  | case3 r e r' h => simp [size_of_stop h]

/-- Takes the next token if it satisfies `p`. -/
def takeIf (p : Token → Bool) (r : ρ) : Except Error (Option Token) × ρ :=
  match next r with
  | .token t r => if p t then (.ok (some t), r) else (.ok none, unread [t] r)
  | .stop .eof r => (.ok none, r)
  | .stop (.fault e) r => (.error e, r)

theorem size_takeIf_le (p : Token → Bool) (r : ρ) : size (takeIf p r).2 ≤ size r := by
  unfold takeIf
  split
  · rename_i t r' h
    split <;> simp [size_of_token h, Nat.add_comm]
  · rename_i r' h
    simp [size_of_stop h]
  · rename_i e r' h
    simp [size_of_stop h]

/-- Takes the next token if it is the punctuator `text`. -/
def takePunct (text : Text) (r : ρ) : Except Error (Option Token) × ρ :=
  takeIf (Token.isPunct text) r

/-- Takes the next token if it is the identifier `name`. -/
def takeIdent (name : Text) (r : ρ) : Except Error (Option Token) × ρ :=
  takeIf (Token.isIdent name) r

/-- Takes an identifier, which must come next. -/
def takeName (r : ρ) : Except Error Token × ρ :=
  match next r with
  | .token t r =>
    if t.kind = .identifier then (.ok t, r)
    else (.error { fault := .expectedIdentifier (some t), pos := t.pos }, r)
  | .stop .eof r => (.error { fault := .expectedIdentifier none }, r)
  | .stop (.fault e) r => (.error e, r)

/-- Takes the rest of a line, which must be blank, and returns the white space that ends
it, if the input goes on. -/
def takeLineEnd (r : ρ) : Except Error (Option Token) × ρ :=
  match _h : next r with
  | .token t r =>
    if t.isLineEnd then (.ok (some t), r)
    else if t.isSpace then takeLineEnd r
    else (.error { fault := .unexpectedAtLineEnd t, pos := t.pos }, r)
  | .stop .eof r => (.ok none, r)
  | .stop (.fault e) r => (.error e, r)
termination_by size r
decreasing_by exact size_lt_of_next _h

end TokenStream

namespace TokenList

def next : List Token → Pull (List Token)
  | [] => .stop .eof []
  | t :: ts => .token t ts

/-- A list is the stream of its tokens. -/
instance : TokenStream (List Token) where
  next := next
  unread ts r := ts ++ r
  content r := (r, .eof)
  content_of_token {r _ _} h := by cases r <;> simp_all [next]
  content_of_stop {r _ _} h := by cases r <;> simp_all [next]
  content_unread _ _ := rfl

end TokenList
end CPreprocessor

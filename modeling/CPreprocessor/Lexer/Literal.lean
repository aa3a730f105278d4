import CPreprocessor.Lexer.Cut

/-!
String and character literals. Between the quotes of an ordinary literal a backslash
begins an escape sequence, which must be well formed. A raw string ends only at its own
delimiter, and its text is the source verbatim, line joins included.
-/

namespace CPreprocessor
namespace Lexer

/-- The bytes that form an escape sequence together with the backslash before them. -/
def isSimpleEscape (b : UInt8) : Bool :=
  (ascii "'\"?\\abfnrtv").contains b

/-- Where the first of `n` hexadecimal digits is missing. -/
def missingHex (stop : Pos) : Nat → List Glyph → Option Pos
  | 0, _ => none
  | _ + 1, [] => some stop
  | n + 1, g :: gs => if Byte.isHex g.byte then missingHex stop n gs else some g.pos

/-- What is wrong with the escape sequence whose first glyph after the backslash is `g`. -/
def escapeError (stop : Pos) (g : Glyph) (gs : List Glyph) : Option Error :=
  if isSimpleEscape g.byte || Byte.isOctal g.byte then none
  else if g.byte = 'x'.toUInt8 then
    (missingHex stop 1 gs).map fun pos => { fault := .hexEscapeWithoutDigits, pos }
  else if g.byte = 'u'.toUInt8 then
    (missingHex stop 4 gs).map fun pos => { fault := .incompleteCharacterName g.byte, pos }
  else if g.byte = 'U'.toUInt8 then
    (missingHex stop 8 gs).map fun pos => { fault := .incompleteCharacterName g.byte, pos }
  else some { fault := .unknownEscape g.byte, pos := g.pos }

/-- How the scan of a literal ends: at its closing quote, at the end of its line or of the
source, or at a bad escape sequence. -/
inductive Closing where
  | closed (cut : Cut)
  | unclosed (cut : Cut)
  | broken (e : Error)

/-- Glyphs taken before those of a scan. -/
def Closing.prepend (gs : List Glyph) : Closing → Closing
  | closed c => closed (c.prepend gs)
  | unclosed c => unclosed (c.prepend gs)
  | broken e => broken e

/-- Scans a literal after its opening quote. A tolerant scan takes bad escape sequences as
they come. -/
def literalTail (tolerant : Bool) (stop : Pos) (mark : UInt8) : List Glyph → Closing
  | [] => .unclosed ⟨[], []⟩
  | [g] =>
    if g.byte = mark then .closed ⟨[g], []⟩
    else if Byte.isLineBreak g.byte then .unclosed ⟨[], [g]⟩
    else .unclosed ⟨[g], []⟩
  | g :: h :: gs =>
    if g.byte = mark then .closed ⟨[g], h :: gs⟩
    else if Byte.isLineBreak g.byte then .unclosed ⟨[], g :: h :: gs⟩
    else if g.byte = Byte.backslash then
      if isSimpleEscape h.byte then (literalTail tolerant stop mark gs).prepend [g, h]
      else match escapeError stop h gs with
        | some e =>
          if tolerant then (literalTail tolerant stop mark (h :: gs)).prepend [g] else .broken e
        | none => (literalTail tolerant stop mark (h :: gs)).prepend [g]
    else (literalTail tolerant stop mark (h :: gs)).prepend [g]

/-- The cut of a scan that was not stopped by an escape sequence. -/
def Closing.cut? : Closing → Option Cut
  | closed c | unclosed c => some c
  | broken _ => none

theorem cut?_prepend (gs : List Glyph) (q : Closing) :
    (q.prepend gs).cut? = q.cut?.map (Cut.prepend gs) := by
  cases q <;> rfl

theorem whole_of_literalTail {tolerant : Bool} {stop : Pos} {mark : UInt8} {gs : List Glyph}
    {c : Cut} (h : (literalTail tolerant stop mark gs).cut? = some c) : c.whole = gs := by
  fun_induction literalTail tolerant stop mark gs generalizing c
  all_goals first
    | (rw [cut?_prepend] at h
       obtain ⟨d, hd, rfl⟩ := Option.map_eq_some_iff.1 h
       simp_all)
    | (simp only [Closing.cut?, Option.some.injEq] at h; subst h; rfl)
    | simp [Closing.cut?] at h

/-- The letters of a character encoding: `u8`, or a single one. -/
def charset (g : Glyph) : List Glyph → Cut
  | h :: gs =>
    if g.byte = 'u'.toUInt8 ∧ h.byte = '8'.toUInt8 then ⟨[g, h], gs⟩ else ⟨[g], h :: gs⟩
  | [] => ⟨[g], []⟩

/-- The encoding letters at the front, which start with one of `u`, `U`, `L` and `R`, and
whether they make a string raw. -/
def encoding (g : Glyph) (gs : List Glyph) : Cut × Bool :=
  if g.byte = 'R'.toUInt8 then (⟨[g], gs⟩, true)
  else match (charset g gs).rest with
    | r :: t =>
      if r.byte = 'R'.toUInt8 then (⟨(charset g gs).taken ++ [r], t⟩, true)
      else (charset g gs, false)
    | [] => (charset g gs, false)

theorem whole_charset (g : Glyph) (gs : List Glyph) : (charset g gs).whole = g :: gs := by
  cases gs with
  | nil => rfl
  | cons h gs => simp only [charset]; split <;> rfl

theorem whole_encoding (g : Glyph) (gs : List Glyph) :
    (encoding g gs).1.whole = g :: gs := by
  have hw := whole_charset g gs
  unfold encoding
  split
  · rfl
  · split
    · rename_i r t hr
      split
      · simp [← hw, Cut.whole, hr]
      · exact hw
    · exact hw

theorem taken_encoding_ne_nil (g : Glyph) (gs : List Glyph) :
    (encoding g gs).1.taken ≠ [] := by
  have hc : (charset g gs).taken ≠ [] := by
    cases gs with
    | nil => simp [charset]
    | cons h gs => simp only [charset]; split <;> simp
  unfold encoding
  repeat' split
  all_goals simp [hc]

/-- The bytes that may not occur in the delimiter of a raw string. -/
def isBadDelimiter (b : UInt8) : Bool :=
  (ascii " )\\\t\x0b\x0c\r\n").contains b

/-- The longest delimiter a raw string may have. -/
def maxDelimiter : Nat :=
  16

/-- Scans the delimiter of a raw string up to its opening parenthesis. `last` is the glyph
before: a line join after it is source text here, and its backslash is no delimiter byte.
`room` is the number of bytes the delimiter may still take. -/
def rawDelimiter (start : Pos) (last : Glyph) (room : Nat) : List Glyph → Except Error Cut
  | [] =>
    if last.splices = [] then .error { fault := .unterminatedRawString, pos := start }
    else .error { fault := .rawDelimiterByte Byte.backslash, pos := last.pos.right }
  | g :: gs =>
    if last.splices ≠ [] then
      .error { fault := .rawDelimiterByte Byte.backslash, pos := last.pos.right }
    else if g.byte = '('.toUInt8 then .ok ⟨[], g :: gs⟩
    else if isBadDelimiter g.byte then
      .error { fault := .rawDelimiterByte g.byte, pos := g.pos }
    else if room = 0 then .error { fault := .rawDelimiterTooLong, pos := start }
    else (rawDelimiter start g (room - 1) gs).map (Cut.prepend [g])

/-- Takes the glyphs that spell `t` without a line join before the last of them. -/
def contiguous : Text → List Glyph → Option Cut
  | [], gs => some ⟨[], gs⟩
  | _ :: _, [] => none
  | [b], g :: gs => if g.byte = b then some ⟨[g], gs⟩ else none
  | b :: t, g :: gs =>
    if g.byte = b ∧ g.splices = [] then (contiguous t gs).map (Cut.prepend [g]) else none

/-- Takes glyphs through the first contiguous occurrence of `closer`. -/
def rawBody (closer : Text) : List Glyph → Option Cut
  | [] => none
  | g :: gs =>
    match contiguous closer (g :: gs) with
    | some c => some c
    | none => (rawBody closer gs).map (Cut.prepend [g])

/-- Scans a raw string from its opening quote `q`. -/
def rawString (start : Pos) (q : Glyph) (gs : List Glyph) : Except Error Cut := do
  let d ← rawDelimiter start q maxDelimiter gs
  let closer := ascii ")" ++ Glyph.spelling d.taken ++ ascii "\""
  match rawBody closer (d.rest.drop 1) with
  | some c => .ok (c.prepend (q :: d.taken ++ d.rest.take 1))
  | none => .error { fault := .unterminatedRawString, pos := start }

theorem whole_of_rawDelimiter {start : Pos} {last : Glyph} {room : Nat} {gs : List Glyph}
    {c : Cut} (h : rawDelimiter start last room gs = .ok c) : c.whole = gs := by
  fun_induction rawDelimiter start last room gs generalizing c with
  | case1 | case2 | case3 | case5 | case6 => cases h
  | case4 => cases h; rfl
  | case7 _ _ g gs _ _ _ _ ih =>
    obtain ⟨d, hd, rfl⟩ := except_map_eq_ok h
    simp [ih hd]

theorem whole_of_contiguous {t : Text} {gs : List Glyph} {c : Cut}
    (h : contiguous t gs = some c) : c.whole = gs := by
  fun_induction contiguous t gs generalizing c with
  | case1 | case3 => simp_all; subst h; rfl
  | case2 | case4 | case6 => simp at h
  | case5 b t g gs _ _ ih =>
    obtain ⟨d, hd, rfl⟩ := Option.map_eq_some_iff.1 h
    simp [ih hd]

theorem whole_of_rawBody {closer : Text} {gs : List Glyph} {c : Cut}
    (h : rawBody closer gs = some c) : c.whole = gs := by
  induction gs generalizing c with
  | nil => simp [rawBody] at h
  | cons g gs ih =>
    simp only [rawBody] at h
    split at h
    · rename_i d hd
      cases h
      exact whole_of_contiguous hd
    · obtain ⟨d, hd, rfl⟩ := Option.map_eq_some_iff.1 h
      simp [ih hd]

theorem whole_of_rawString {start : Pos} {q : Glyph} {gs : List Glyph} {c : Cut}
    (h : rawString start q gs = .ok c) : c.whole = q :: gs := by
  unfold rawString at h
  cases hd : rawDelimiter start q maxDelimiter gs with
  | error e => simp [hd, bind, Except.bind] at h
  | ok d =>
    simp only [hd, bind, Except.bind] at h
    split at h
    · rename_i b hb
      simp only [Except.ok.injEq] at h
      subst h
      have := whole_of_rawDelimiter hd
      rw [Cut.whole_prepend, whole_of_rawBody hb, ← this, Cut.whole]
      simp only [List.append_assoc, List.cons_append, List.take_append_drop]
    · contradiction

end Lexer
end CPreprocessor

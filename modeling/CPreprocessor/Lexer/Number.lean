import CPreprocessor.Lexer.Cut

/-!
Preprocessing numbers. After its first digit a number goes on over letters, digits,
underscores and dots, over a sign after an exponent letter, and over a separator when a
letter or digit follows.
-/

namespace CPreprocessor
namespace Lexer

/-- Scans the rest of a number. A separator that no letter or digit follows is an error
there, or at `stop` where the source ends. -/
def numberTail (stop : Pos) : List Glyph → Except Error Cut
  | [] => .ok ⟨[], []⟩
  | [g] =>
    if Byte.isIdent g.byte || g.byte == '.'.toUInt8 then .ok ⟨[g], []⟩
    else if g.byte = Byte.apostrophe then
      .error { fault := .separatorWithoutDigit, pos := stop }
    else .ok ⟨[], [g]⟩
  | g :: h :: gs =>
    if Byte.isExponent g.byte && Byte.isSign h.byte then
      (numberTail stop gs).map (Cut.prepend [g, h])
    else if Byte.isIdent g.byte || g.byte == '.'.toUInt8 then
      (numberTail stop (h :: gs)).map (Cut.prepend [g])
    else if g.byte = Byte.apostrophe then
      if Byte.isIdent h.byte then (numberTail stop gs).map (Cut.prepend [g, h])
      else .error { fault := .separatorWithoutDigit, pos := h.pos }
    else .ok ⟨[], g :: h :: gs⟩

/-- Whether a number starts here: a digit, or a dot and a digit. -/
def startsNumber : List Glyph → Bool
  | [] => false
  | [g] => Byte.isDigit g.byte
  | g :: h :: _ => Byte.isDigit g.byte || (g.byte == '.'.toUInt8 && Byte.isDigit h.byte)

/-- Scans a number that starts with `g`; a digit after a leading dot belongs to the rest. -/
def number (stop : Pos) (g : Glyph) (gs : List Glyph) : Except Error Cut :=
  (numberTail stop gs).map (Cut.prepend [g])

theorem whole_of_numberTail {stop : Pos} {gs : List Glyph} {c : Cut}
    (h : numberTail stop gs = .ok c) : c.whole = gs := by
  fun_induction numberTail stop gs generalizing c with
  | case1 | case2 | case4 | case9 => cases h; rfl
  | case3 | case8 => cases h
  | case5 g h gs _ ih | case6 g h gs _ _ ih | case7 g h gs _ _ _ _ ih =>
    obtain ⟨d, hd, rfl⟩ := except_map_eq_ok ‹_›
    simp [ih hd]

theorem whole_of_number {stop : Pos} {g : Glyph} {gs : List Glyph} {c : Cut}
    (h : number stop g gs = .ok c) : c.whole = g :: gs ∧ c.taken ≠ [] := by
  obtain ⟨d, hd, rfl⟩ := except_map_eq_ok h
  simp [whole_of_numberTail hd]

end Lexer
end CPreprocessor

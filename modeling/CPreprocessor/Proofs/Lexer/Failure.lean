import CPreprocessor.Proofs.Lexer.Tokens
import CPreprocessor.Proofs.Outcome

/-!
How scanning fails. Every error of the lexer is a lexical one, and if the glyphs that are scanned
are at positions of a set, and the end of their source too, so is the error.
-/

namespace CPreprocessor

variable {S : Pos → Prop}

/-- The glyphs stand at positions of `S`, and so do the line joins behind them on their lines. -/
def Glyph.Placed (S : Pos → Prop) (gs : List Glyph) : Prop :=
  ∀ g ∈ gs, S g.pos ∧ (Byte.isLineBreak g.byte = false → g.splices ≠ [] → S g.pos.right)

theorem Glyph.Placed.of_cons {g : Glyph} {gs : List Glyph} (h : Placed S (g :: gs)) :
    S g.pos ∧ Placed S gs :=
  ⟨(h g List.mem_cons_self).1, fun g' hg' => h g' (List.mem_cons_of_mem g hg')⟩

theorem Glyph.Placed.of_suffix {gs hs : List Glyph} (h : Placed S gs) (hsuffix : hs <:+ gs) :
    Placed S hs :=
  fun g hg => h g (hsuffix.subset hg)

namespace Lexer

open Glyph (Placed)
open Error (KindAt)

variable {tolerant : Bool} {start stop : Pos}

theorem lexical_numberTail (hstop : S stop) {gs : List Glyph} (h : Placed S gs) :
    FailsIn (KindAt .lexical S) (numberTail stop gs) := by
  fun_induction numberTail stop gs with
  | case1 | case2 | case4 | case9 => exact .ok _
  | case3 => exact .error (.here hstop rfl)
  | case8 => exact .error (.here h.of_cons.2.of_cons.1 rfl)
  | case5 _ _ _ _ ih | case7 _ _ _ _ _ _ _ ih => exact (ih h.of_cons.2.of_cons.2).map _
  | case6 _ _ _ _ _ ih => exact (ih h.of_cons.2).map _

theorem placed_missingHex (hstop : S stop) {n : Nat} {gs : List Glyph} (h : Placed S gs) {p : Pos}
    (hp : missingHex stop n gs = some p) : S p := by
  fun_induction missingHex stop n gs with
  | case1 => cases hp
  | case2 =>
      cases hp
      exact hstop
  | case3 _ _ _ _ ih => exact ih h.of_cons.2 hp
  | case4 =>
      cases hp
      exact h.of_cons.1

theorem lexical_escapeError (hstop : S stop) {g : Glyph} {gs : List Glyph}
    (h : Placed S (g :: gs)) {e : Error} (he : escapeError stop g gs = some e) :
    KindAt .lexical S e := by
  have hmissing {n : Nat} {fault : Fault} (hk : fault.kind = .lexical)
      (hm : (missingHex stop n gs).map (fun pos => ({ fault, pos } : Error)) = some e) :
      KindAt .lexical S e := by
    obtain ⟨p, hp, rfl⟩ := Option.map_eq_some_iff.1 hm
    exact .here (placed_missingHex hstop h.of_cons.2 hp) hk
  unfold escapeError at he
  repeat' split at he
  · cases he
  · exact hmissing rfl he
  · exact hmissing rfl he
  · exact hmissing rfl he
  · cases he
    exact .here h.of_cons.1 rfl

theorem lexical_literalTail (hstop : S stop) {mark : UInt8} {gs : List Glyph} (h : Placed S gs)
    {e : Error} (he : literalTail tolerant stop mark gs = .broken e) : KindAt .lexical S e := by
  have hprepend {us : List Glyph} {q : Closing} (hq : q.prepend us = .broken e) :
      q = .broken e := by
    cases q with
    | closed c | unclosed c => cases hq
    | broken f =>
        cases hq
        rfl
  fun_induction literalTail tolerant stop mark gs with
  | case1 | case2 | case3 | case4 | case5 | case6 => cases he
  | case7 _ _ _ _ _ _ _ ih => exact ih h.of_cons.2.of_cons.2 (hprepend he)
  | case8 _ _ _ _ _ _ _ _ _ _ ih => exact ih h.of_cons.2 (hprepend he)
  | case9 _ _ _ _ _ _ _ _ hx =>
      cases he
      exact lexical_escapeError hstop h.of_cons.2 hx
  | case10 _ _ _ _ _ _ _ _ ih => exact ih h.of_cons.2 (hprepend he)
  | case11 _ _ _ _ _ _ ih => exact ih h.of_cons.2 (hprepend he)

theorem lexical_rawDelimiter (hstart : S start) {last : Glyph}
    (hlast : last.splices ≠ [] → S last.pos.right) {room : Nat} {gs : List Glyph}
    (h : Placed S gs) : FailsIn (KindAt .lexical S) (rawDelimiter start last room gs) := by
  fun_induction rawDelimiter start last room gs with
  | case1 | case6 => exact .error (.here hstart rfl)
  | case2 _ _ hs | case3 _ _ _ _ hs => exact .error (.here (hlast hs) rfl)
  | case4 => exact .ok _
  | case5 => exact .error (.here h.of_cons.1 rfl)
  | case7 _ _ g gs _ _ hbad _ ih =>
      have hbreak : Byte.isLineBreak g.byte = false :=
        not_isLineBreak_of_isBadDelimiter (Bool.eq_false_iff.2 hbad)
      exact (ih ((h g List.mem_cons_self).2 hbreak) h.of_cons.2).map _

theorem lexical_rawString (hstart : S start) {q : Glyph} {gs : List Glyph}
    (hq : q.byte = Byte.quote) (h : Placed S (q :: gs)) :
    FailsIn (KindAt .lexical S) (rawString start q gs) := by
  have hlast : q.splices ≠ [] → S q.pos.right :=
    (h q List.mem_cons_self).2 (by rw [hq]; decide)
  refine (lexical_rawDelimiter hstart hlast h.of_cons.2).bind fun d _ => ?_
  simp only
  split
  · exact .ok _
  · exact .error (.here hstart rfl)

theorem lexical_quotedLexeme (hstart : S start) (hstop : S stop) {kind : Kind}
    {letters : List Glyph} {q : Glyph} {gs : List Glyph} (h : Placed S gs) :
    FailsIn (KindAt .lexical S) (quotedLexeme tolerant start stop kind letters q gs) := by
  unfold quotedLexeme
  split
  · exact .ok _
  · split
    · exact .ok _
    · exact .error (.here hstart rfl)
  · rename_i he
    exact .error (lexical_literalTail hstop h he)

theorem lexical_encodedLexeme (hstop : S stop) {g : Glyph} {gs : List Glyph}
    (h : Placed S (g :: gs)) : FailsIn (KindAt .lexical S) (encodedLexeme tolerant stop g gs) := by
  have hwhole := whole_encoding g gs
  unfold encodedLexeme
  simp only
  split
  · rename_i q t ht
    have hrest : Placed S (q :: t) := by
      refine h.of_suffix ⟨(encoding g gs).1.taken, ?_⟩
      rw [← hwhole, Cut.whole, ht]
    split
    · rename_i hq
      split
      · exact (lexical_rawString h.of_cons.1 hq hrest).map _
      · exact lexical_quotedLexeme h.of_cons.1 hstop hrest.of_cons.2
    · split
      · exact lexical_quotedLexeme h.of_cons.1 hstop hrest.of_cons.2
      · exact .ok _
  · exact .ok _

theorem lexical_lexeme (hstop : S stop) {g : Glyph} {gs : List Glyph} (h : Placed S (g :: gs)) :
    FailsIn (KindAt .lexical S) (lexeme tolerant stop g gs) := by
  obtain ⟨hg, hgs⟩ := h.of_cons
  unfold lexeme
  split
  · exact .error (.here hg rfl)
  · split
    · unfold solidLexeme
      repeat' split
      · exact ((lexical_numberTail hstop hgs).map _).map _
      · exact lexical_encodedLexeme hstop h
      · exact lexical_quotedLexeme hg hstop hgs
      · exact lexical_quotedLexeme hg hstop hgs
      all_goals exact .ok _
    · exact .ok _

/-- An error of the lexer is a lexical one, and the lexer stays where it is. -/
theorem kind_of_pull {l l₁ : Lexer} {e : Error} (h : l.pull = .stop (.fault e) l₁) :
    e.kind = .lexical ∧ l₁ = l := by
  unfold pull at h
  split at h
  · cases h
  · rename_i g gs hr
    have hplaced : Placed (fun _ => True) (g :: gs) :=
      fun _ _ => ⟨trivial, fun _ _ => trivial⟩
    split at h
    · cases h
    · rename_i he
      cases h
      exact ⟨(lexical_lexeme (S := fun _ => True) trivial hplaced e he).kind, rfl⟩

end Lexer
end CPreprocessor

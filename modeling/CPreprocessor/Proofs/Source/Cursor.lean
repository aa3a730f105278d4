import CPreprocessor.Lexer
import CPreprocessor.Proofs.Source.LineTable
import CPreprocessor.Proofs.Source.Splicing
import CPreprocessor.Proofs.Text.Byte

/-!
Reading a text with a cursor, an offset that is moved over the line joins it comes to. The glyphs
of the text are what the cursor comes by: the first glyph is the byte at the cursor, with its
position and the joins that an advance goes over, and the others are those behind the advance. So
what a scanner does with the cursor is done with the list of glyphs.
-/

namespace CPreprocessor
namespace Cursor

/-- Goes over the line joins at the offset `i`. -/
def splice (src : Text) (i : Nat) : Nat :=
  if i + 1 < src.length ∧ src[i]? = some Byte.backslash then
    if [Byte.carriageReturn, Byte.lineFeed].isPrefixOf (src.drop (i + 1)) then splice src (i + 3)
    else if src[i + 1]? = some Byte.lineFeed ∨ src[i + 1]? = some Byte.carriageReturn then
      splice src (i + 2)
    else i
  else i
termination_by src.length - i

def atEnd (src : Text) (i : Nat) : Bool :=
  src.length ≤ i

/-- The byte at the cursor, or zero at the end. -/
def current (src : Text) (i : Nat) : UInt8 :=
  if atEnd src i then 0 else src[i]?.getD 0

/-- Goes over the byte at the cursor and the line joins behind it. -/
def advance (src : Text) (i : Nat) : Nat :=
  splice src (i + 1)

/-- The byte after the one at the cursor. -/
def peekNext (src : Text) (i : Nat) : UInt8 :=
  current src (advance src i)

/-- Appends the byte at the cursor to a buffer and goes over it. -/
def take (src : Text) (buffer : Text) (i : Nat) : Text × Nat :=
  (buffer ++ [current src i], advance src i)

/-- Goes over the bytes of a word, if the text continues with it. -/
def consume (src : Text) : Text → Nat → Option Nat
  | [], i => some i
  | b :: word, i =>
    if atEnd src i ∨ src[i]? ≠ some b then none else consume src word (advance src i)

end Cursor

namespace Glyph

/-- The glyphs that a cursor at the offset `i` has before it. -/
def ahead (src : Text) (i : Nat) : List Glyph :=
  (spliced (src.position i) (src.drop i)).2

end Glyph

namespace Cursor

open Glyph (ahead joinFirst spliced spelling totalLength)

variable {src : Text} {i : Nat} {b : UInt8} {t : Text}

/-- There is no line join before the cursor. -/
def Settled (src : Text) (i : Nat) : Prop :=
  joinFirst (src.drop i) = false

theorem drop_of_getElem? (h : src[i]? = some b) : src.drop i = b :: src.drop (i + 1) := by
  obtain ⟨hlt, rfl⟩ := List.getElem?_eq_some_iff.1 h
  exact List.drop_eq_getElem_cons hlt

theorem drop_crlf (hb : src[i]? = some Byte.backslash)
    (h : [Byte.carriageReturn, Byte.lineFeed].isPrefixOf (src.drop (i + 1)) = true) :
    src.drop i = Byte.backslash :: Byte.carriageReturn :: Byte.lineFeed :: src.drop (i + 3) := by
  obtain ⟨t, ht⟩ := List.isPrefixOf_iff_prefix.1 h
  have hrest : src.drop (i + 3) = (src.drop (i + 1)).drop 2 := by rw [List.drop_drop]
  rw [drop_of_getElem? hb, hrest, ← ht]
  rfl

theorem endsLine_of_join (hcrlf : ¬[Byte.carriageReturn, Byte.lineFeed].isPrefixOf
      (src.drop (i + 1)) = true) (h : src[i + 1]? = some b) (hb : Byte.isLineBreak b = true) :
    Pos.endsLine b (src.drop (i + 2)) = true := by
  rcases Byte.isLineBreak_eq_true hb with rfl | rfl
  · rfl
  · rw [drop_of_getElem? h] at hcrlf
    simp only [Pos.endsLine, BEq.rfl, Bool.true_and, Bool.or_eq_true, bne_iff_ne]
    refine .inr fun hhead => hcrlf ?_
    rw [List.head?_drop] at hhead
    rw [drop_of_getElem? hhead]
    rfl

theorem position_join (h : src.drop i = Byte.backslash :: b :: t)
    (hb : Pos.endsLine b t = true) :
    src.position (i + 2) = (src.position i).right.newLine := by
  have h₁ : src.drop (i + 1) = b :: t := by rw [← List.tail_drop, h, List.tail_cons]
  rw [← Text.after_position h₁, ← Text.after_position h, Pos.after, Pos.after, if_pos hb]
  rfl

theorem position_crlf
    (h : src.drop i = Byte.backslash :: Byte.carriageReturn :: Byte.lineFeed :: t) :
    src.position (i + 3) = (src.position i).right.right.newLine := by
  have h₁ : src.drop (i + 1) = Byte.carriageReturn :: Byte.lineFeed :: t := by
    rw [← List.tail_drop, h, List.tail_cons]
  have h₂ : src.drop (i + 2) = Byte.lineFeed :: t := by
    rw [← List.tail_drop, h₁, List.tail_cons]
  rw [← Text.after_position h₂, ← Text.after_position h₁, ← Text.after_position h]
  rfl

theorem settled_of_getElem?
    (h : ∀ b, src[i]? = some Byte.backslash → src[i + 1]? = some b →
      Byte.isLineBreak b = false) :
    Settled src i := by
  unfold Settled
  match hd : src.drop i with
  | [] => rfl
  | [_] => rfl
  | a :: b :: t =>
      have ha : src[i]? = some a := by rw [← List.head?_drop, hd, List.head?_cons]
      have hb : src[i + 1]? = some b := by
        rw [← List.head?_drop, ← List.tail_drop, hd, List.tail_cons, List.head?_cons]
      by_cases hab : a = Byte.backslash
      · simp [joinFirst, h b (hab ▸ ha) hb]
      · simp [joinFirst, hab]

/-- What the reading of a text skips in front of the first glyph is what the cursor goes over. -/
theorem spliced_drop (src : Text) (i : Nat) :
    spliced (src.position i) (src.drop i) =
        ((src.drop i).take (splice src i - i), ahead src (splice src i)) ∧
      Settled src (splice src i) ∧ i ≤ splice src i ∧
        (i ≤ src.length → splice src i ≤ src.length) := by
  have hstop {i : Nat} (h : Settled src i) :
      spliced (src.position i) (src.drop i) = ((src.drop i).take (i - i), ahead src i) := by
    rw [Nat.sub_self, List.take_zero, ← Glyph.spliced_fst_of_joinFirst (src.position i) h]
    rfl
  fun_induction splice src i with
  | case1 i hb hcrlf ih =>
      obtain ⟨heq, hsettled, hle, hlen⟩ := ih
      have hdrop := drop_crlf hb.2 hcrlf
      have hlt : i + 3 ≤ src.length := by
        have := congrArg List.length hdrop
        simp only [List.length_drop, List.length_cons] at this
        omega
      obtain ⟨m, hm⟩ := Nat.exists_eq_add_of_le hle
      refine ⟨?_, hsettled, by omega, fun _ => hlen hlt⟩
      rw [hdrop, Glyph.spliced_crlf, ← position_crlf hdrop, heq, hm,
        show i + 3 + m - i = m + 3 by omega, show i + 3 + m - (i + 3) = m by omega]
      rfl
  | case2 i hb hcrlf hbreak ih =>
      obtain ⟨heq, hsettled, hle, hlen⟩ := ih
      obtain ⟨b, hnext, hends⟩ : ∃ b, src[i + 1]? = some b ∧
          Pos.endsLine b (src.drop (i + 2)) = true := by
        rcases hbreak with h | h
        · exact ⟨_, h, endsLine_of_join hcrlf h rfl⟩
        · exact ⟨_, h, endsLine_of_join hcrlf h rfl⟩
      have hdrop : src.drop i = Byte.backslash :: b :: src.drop (i + 2) := by
        rw [drop_of_getElem? hb.2, drop_of_getElem? hnext]
      obtain ⟨m, hm⟩ := Nat.exists_eq_add_of_le hle
      refine ⟨?_, hsettled, by omega, fun _ => hlen (by omega)⟩
      rw [hdrop, Glyph.spliced_join _ hends, ← position_join hdrop hends, heq, hm,
        show i + 2 + m - i = m + 2 by omega, show i + 2 + m - (i + 2) = m by omega]
      rfl
  | case3 i hb hcrlf hbreak =>
      have hsettled : Settled src i := by
        refine settled_of_getElem? fun b _ hnext => ?_
        rw [hnext, Option.some.injEq, Option.some.injEq] at hbreak
        obtain ⟨hfeed, hreturn⟩ := not_or.1 hbreak
        simp [Byte.isLineBreak, hfeed, hreturn]
      exact ⟨hstop hsettled, hsettled, Nat.le_refl i, id⟩
  | case4 i hb =>
      have hsettled : Settled src i := by
        refine settled_of_getElem? fun b hi hnext => ?_
        exact absurd ⟨(List.getElem?_eq_some_iff.1 hnext).1, hi⟩ hb
      exact ⟨hstop hsettled, hsettled, Nat.le_refl i, id⟩

/-- Going over the joins keeps the glyphs. -/
theorem ahead_splice (src : Text) (i : Nat) : ahead src (splice src i) = ahead src i := by
  rw [ahead, ahead, (spliced_drop src i).1]
  rfl

theorem settled_splice (src : Text) (i : Nat) : Settled src (splice src i) :=
  (spliced_drop src i).2.1

theorem settled_advance (src : Text) (i : Nat) : Settled src (advance src i) :=
  settled_splice src (i + 1)

/-- A lexer has the glyphs before a cursor that has gone over the joins in front. -/
theorem rest_ofText (src : Text) : (Lexer.ofText src).rest = ahead src (splice src 0) := by
  rw [ahead_splice]
  rfl

/-- The glyphs before a cursor: the byte at the cursor with the joins behind it, and the glyphs
before the cursor that has gone over it. -/
theorem ahead_cons (h : Settled src i) (hb : src[i]? = some b) :
    ahead src i =
      ⟨b, src.position i, (src.drop (i + 1)).take (advance src i - (i + 1))⟩ ::
        ahead src (advance src i) := by
  have hdrop := drop_of_getElem? hb
  rw [Settled, hdrop] at h
  rw [ahead, hdrop, Glyph.spliced_cons _ h, Text.after_position hdrop,
    (spliced_drop src (i + 1)).1]
  rfl

theorem ahead_of_le (h : src.length ≤ i) : ahead src i = [] := by
  rw [ahead, List.drop_eq_nil_of_le h]
  rfl

theorem atEnd_iff (h : Settled src i) : atEnd src i = true ↔ ahead src i = [] := by
  rw [atEnd, decide_eq_true_iff]
  refine ⟨ahead_of_le, fun hnil => Nat.le_of_not_lt fun hlt => ?_⟩
  rw [ahead_cons h (List.getElem?_eq_getElem hlt)] at hnil
  cases hnil

/-- Before the end there is a first glyph, at the cursor. -/
theorem exists_ahead_cons (h : Settled src i) (hend : atEnd src i = false) :
    ∃ g gs, ahead src i = g :: gs ∧ g.byte = current src i ∧ g.pos = src.position i := by
  have hi : i < src.length := Nat.lt_of_not_le (of_decide_eq_false hend)
  have hb := List.getElem?_eq_getElem hi
  refine ⟨_, _, ahead_cons h hb, ?_, rfl⟩
  simp only [current, hend, Bool.false_eq_true, if_false, hb, Option.getD_some]

theorem lt_length_of_ahead {g : Glyph} {gs : List Glyph} (hg : ahead src i = g :: gs) :
    i < src.length := by
  refine Nat.lt_of_not_le fun hle => ?_
  rw [ahead_of_le hle] at hg
  cases hg

theorem head?_ahead (h : Settled src i) : (ahead src i).head?.map Glyph.byte = src[i]? := by
  cases hb : src[i]? with
  | none => rw [ahead_of_le (List.getElem?_eq_none_iff.1 hb)]; rfl
  | some b => rw [ahead_cons h hb]; rfl

/-- The byte at the cursor is that of the first glyph. -/
theorem current_eq (h : Settled src i) :
    current src i = ((ahead src i).head?.map Glyph.byte).getD 0 := by
  rw [head?_ahead h, current, atEnd]
  split
  · rename_i hend
    rw [List.getElem?_eq_none (of_decide_eq_true hend)]
    rfl
  · rfl

/-- An advance leaves the other glyphs. -/
theorem ahead_advance (h : Settled src i) (hi : i < src.length) :
    ahead src (advance src i) = (ahead src i).tail := by
  rw [ahead_cons h (List.getElem?_eq_getElem hi), List.tail_cons]

/-- The byte after the one at the cursor is that of the second glyph. -/
theorem peekNext_eq (h : Settled src i) (hi : i < src.length) :
    peekNext src i = ((ahead src i).tail.head?.map Glyph.byte).getD 0 := by
  rw [peekNext, current_eq (settled_advance src i), ahead_advance h hi]

/-- A step of the cursor is as long as the first glyph. -/
theorem advance_eq {g : Glyph} {gs : List Glyph} (h : Settled src i)
    (hg : ahead src i = g :: gs) : advance src i = i + g.length := by
  have hi := lt_length_of_ahead hg
  obtain ⟨-, -, hle, hlen⟩ := spliced_drop src (i + 1)
  have hle : i + 1 ≤ advance src i := hle
  have hlen : advance src i ≤ src.length := hlen hi
  rw [ahead_cons h (List.getElem?_eq_getElem hi)] at hg
  rw [← (List.cons.inj hg).1, Glyph.length, List.length_take, List.length_drop]
  omega

/-- What a step takes is the byte of the first glyph. -/
theorem take_eq {g : Glyph} {gs : List Glyph} (h : Settled src i) (hg : ahead src i = g :: gs)
    (buffer : Text) :
    take src buffer i = (buffer ++ [g.byte], i + g.length) ∧ ahead src (i + g.length) = gs := by
  have hadvance := advance_eq h hg
  have hi := lt_length_of_ahead hg
  have hrest := ahead_advance h hi
  rw [hadvance, hg] at hrest
  refine ⟨?_, hrest⟩
  rw [take, hadvance, current_eq h, hg]
  rfl

/-- A word is consumed if the glyphs spell it, and the cursor is then behind those glyphs. -/
theorem consume_eq (word : Text) (h : Settled src i) :
    (consume src word i).map (fun j => (ahead src j, j)) =
      (Cut.spelled word (ahead src i)).map fun c => (c.rest, i + totalLength c.taken) := by
  induction word generalizing i with
  | nil => rfl
  | cons b word ih =>
      rw [consume]
      cases hb : src[i]? with
      | none =>
          rw [ahead_of_le (List.getElem?_eq_none_iff.1 hb)]
          simp [Cut.spelled]
      | some c =>
          have hi := (List.getElem?_eq_some_iff.1 hb).1
          have hend : atEnd src i = false := decide_eq_false (Nat.not_le.2 hi)
          have hg := ahead_cons h hb
          have hadvance := advance_eq h hg
          have hnext := ih (settled_advance src i)
          generalize hgl : (⟨c, src.position i, _⟩ : Glyph) = g at hg hadvance
          have hbyte : g.byte = c := by rw [← hgl]
          have hlength (d : Cut) : advance src i + totalLength d.taken =
              i + totalLength (d.prepend [g]).taken := by
            rw [hadvance, Nat.add_assoc]
            rfl
          rw [hg, Cut.spelled, hbyte, hend]
          by_cases hc : c = b
          · simp only [hc, Bool.false_eq_true, ne_eq, not_true_eq_false, or_self,
              if_false, if_true, hnext, Option.map_map, hlength]
            rfl
          · simp [hc]

/-- Takes bytes while they satisfy `p`. -/
def takeWhile (src : Text) (p : UInt8 → Bool) (buffer : Text) (i : Nat) : Text × Nat :=
  if atEnd src i then (buffer, i)
  else if p (current src i) then takeWhile src p (take src buffer i).1 (take src buffer i).2
  else (buffer, i)
termination_by src.length - i
decreasing_by
  rename_i hend _
  have hle : i + 1 ≤ advance src i := (spliced_drop src (i + 1)).2.2.1
  simp only [atEnd, decide_eq_true_eq] at hend
  simp only [take]
  omega

/-- The bytes taken are those of the glyphs that a scanner of the list takes. -/
theorem takeWhile_eq (p : UInt8 → Bool) (buffer : Text) (h : Settled src i) :
    takeWhile src p buffer i =
        (buffer ++ spelling (Cut.spanning p (ahead src i)).taken,
          i + totalLength (Cut.spanning p (ahead src i)).taken) ∧
      ahead src (i + totalLength (Cut.spanning p (ahead src i)).taken) =
        (Cut.spanning p (ahead src i)).rest := by
  fun_induction takeWhile src p buffer i with
  | case1 buffer i hend =>
      have hnil := (atEnd_iff h).1 hend
      rw [hnil]
      exact ⟨by simp [Cut.spanning, spelling, totalLength], hnil⟩
  | case2 buffer i hend hp ih =>
      obtain ⟨g, gs, hg, hbyte, -⟩ := exists_ahead_cons h (Bool.not_eq_true _ ▸ hend)
      obtain ⟨htake, hrest⟩ := take_eq h hg buffer
      have hnext := ih (settled_advance src i)
      rw [htake, hrest] at hnext
      rw [hg, Cut.spanning, hbyte, if_pos hp, Cut.taken_prepend, Cut.rest_prepend,
        List.singleton_append, Glyph.spelling_cons, totalLength, ← Nat.add_assoc, htake]
      refine ⟨?_, hnext.2⟩
      rw [hnext.1, List.append_assoc]
      rfl
  | case3 buffer i hend hp =>
      obtain ⟨g, gs, hg, hbyte, -⟩ := exists_ahead_cons h (Bool.not_eq_true _ ▸ hend)
      rw [hg, Cut.spanning, hbyte, if_neg hp]
      exact ⟨by simp [spelling, totalLength], hg⟩

end Cursor
end CPreprocessor

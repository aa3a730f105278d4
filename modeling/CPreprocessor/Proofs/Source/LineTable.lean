import CPreprocessor.Source.Position

/-!
Positions by lookup. The position of an offset is given by the line ends before it. They can be
looked up in a table of the line starts of the whole text, made once: a binary search finds the
first line that starts behind the offset, and the line in front of it is the line of the offset.
-/

namespace CPreprocessor
namespace Text

/-- Whether a line ends with the byte at the offset `i`: a line feed, or a carriage return in front
of anything else. -/
def endsLineAt (src : Text) (i : Nat) : Bool :=
  src[i]? == some Byte.lineFeed ||
    (src[i]? == some Byte.carriageReturn && src[i + 1]? != some Byte.lineFeed)

/-- The offsets, in order, just behind the line ends that end at or before the offset `n`. -/
def lineStarts (src : Text) (n : Nat) : List Nat :=
  ((List.range n).filter src.endsLineAt).map (· + 1)

/-- The position of the offset `n`. -/
def position (src : Text) (n : Nat) : Pos where
  offset := n
  line := 1 + (src.lineStarts n).length
  col := n - (src.lineStarts n).getLast?.getD 0 + 1

variable {src rest : Text} {n : Nat} {b : UInt8}

theorem endsLineAt_eq (h : src.drop n = b :: rest) : src.endsLineAt n = Pos.endsLine b rest := by
  have hb : src[n]? = some b := by rw [← List.head?_drop, h]; rfl
  have hnext : src[n + 1]? = rest.head? := by
    rw [← List.head?_drop, ← List.drop_drop, h]
    rfl
  simp [endsLineAt, Pos.endsLine, hb, hnext]

theorem lineStarts_succ (src : Text) (n : Nat) :
    src.lineStarts (n + 1) = src.lineStarts n ++ if src.endsLineAt n then [n + 1] else [] := by
  rw [lineStarts, List.range_succ, List.filter_append, List.map_append, ← lineStarts]
  cases h : src.endsLineAt n <;> simp [h]

/-- The next byte begins a line or stands one column further on. -/
theorem position_succ (src : Text) (n : Nat) :
    src.position (n + 1) =
      if src.endsLineAt n then (src.position n).newLine else (src.position n).right := by
  simp only [position, lineStarts_succ]
  split
  · simp [Pos.newLine]
    omega
  · simp [Pos.right]
    omega

theorem after_position (h : src.drop n = b :: rest) :
    (src.position n).after b rest = src.position (n + 1) := by
  rw [position_succ, endsLineAt_eq h, Pos.after]

/-- The line starts found so far, and those that the text has from the offset `i` on. -/
def lineTableFrom (src : Text) (i : Nat) (starts : List Nat) : List Nat :=
  if h : i < src.length then
    if src[i] = Byte.lineFeed then lineTableFrom src (i + 1) (starts ++ [i + 1])
    else if src[i] = Byte.carriageReturn then
      if i + 1 < src.length ∧ src[i + 1]? = some Byte.lineFeed then
        lineTableFrom src (i + 1) starts
      else lineTableFrom src (i + 1) (starts ++ [i + 1])
    else lineTableFrom src (i + 1) starts
  else starts

/-- The offsets at which the lines of the text start. -/
def lineTable (src : Text) : List Nat :=
  lineTableFrom src 0 [0]

/-- The first number from `lo` on and below `hi` of which `f` holds, or `hi`, found by halving
the range. It is for an `f` that goes on to hold once it does. -/
def search (f : Nat → Bool) (lo hi : Nat) : Nat :=
  if lo < hi then
    let mid := (lo + hi) / 2
    if f mid then search f lo mid else search f (mid + 1) hi
  else lo
termination_by hi - lo

/-- The position of the offset `n`, looked up in the table. There is none if no line starts at or
before the offset. -/
def lookup (src : Text) (n : Nat) : Option Pos :=
  let lines := src.lineTable
  match search (fun i => lines[i]?.any (n < ·)) 0 lines.length with
  | 0 => none
  | i + 1 =>
    lines[i]?.map fun (start : Nat) => { offset := n, line := i + 1, col := n - start + 1 }

/-- The loop adds a start behind each line end. -/
theorem lineTableFrom_eq {i : Nat} (hi : i ≤ src.length) :
    src.lineTableFrom i (0 :: src.lineStarts i) = 0 :: src.lineStarts src.length := by
  induction hm : src.length - i generalizing i with
  | zero =>
      have heq : i = src.length := by omega
      rw [lineTableFrom, dif_neg (by omega), heq]
  | succ m ih =>
      have hlt : i < src.length := by omega
      have hnext := ih (i := i + 1) hlt (by omega)
      have hb : src[i]? = some src[i] := List.getElem?_eq_getElem hlt
      rw [lineStarts_succ, endsLineAt, hb] at hnext
      rw [lineTableFrom, dif_pos hlt]
      split
      · rename_i hfeed
        simpa [hfeed] using hnext
      · rename_i hfeed
        split
        · rename_i hreturn
          split
          · rename_i hcrlf
            simpa [hreturn, hcrlf.2, hreturn ▸ hfeed] using hnext
          · rename_i hcrlf
            have hno : src[i + 1]? ≠ some Byte.lineFeed := by
              intro hsome
              exact hcrlf ⟨(List.getElem?_eq_some_iff.1 hsome).1, hsome⟩
            simpa [hreturn, hno] using hnext
        · rename_i hreturn
          simpa [hfeed, hreturn] using hnext

theorem lineTable_eq (src : Text) : src.lineTable = 0 :: src.lineStarts src.length :=
  lineTableFrom_eq (Nat.zero_le _)

/-- The search finds where `f` begins to hold. -/
theorem search_eq {f : Nat → Bool} {lo hi k : Nat} (hlo : lo ≤ k) (hhi : k ≤ hi)
    (hbefore : ∀ i, lo ≤ i → i < k → f i = false)
    (hbehind : ∀ i, k ≤ i → i < hi → f i = true) :
    search f lo hi = k := by
  fun_induction search f lo hi with
  | case1 lo hi hlt mid hmid ih =>
      have hk : k ≤ mid := by
        refine Nat.le_of_not_lt fun hlt => ?_
        rw [hbefore mid (by omega) hlt] at hmid
        cases hmid
      exact ih hlo hk hbefore fun i hki him => hbehind i hki (by omega)
  | case2 lo hi hlt mid hmid ih =>
      have hk : mid < k := by
        refine Nat.lt_of_not_le fun hle => hmid (hbehind mid hle (by omega))
      exact ih hk hhi (fun i hi hik => hbefore i (by omega) hik) hbehind
  | case3 lo hi hge => omega

/-- In a list that splits in numbers up to `n` and numbers behind `n`, the search finds where it
splits. -/
theorem search_append (us vs : List Nat) (hus : ∀ u ∈ us, u ≤ n) (hvs : ∀ v ∈ vs, n < v) :
    search (fun i => (us ++ vs)[i]?.any (n < ·)) 0 (us ++ vs).length = us.length := by
  refine search_eq (Nat.zero_le _) (by simp) (fun i _ hi => ?_) (fun i hi hlen => ?_)
  · have hle := hus us[i] (List.getElem_mem hi)
    rw [List.getElem?_append_left hi, List.getElem?_eq_getElem hi]
    simpa using hle
  · have hlt : i - us.length < vs.length := by
      rw [List.length_append] at hlen
      omega
    have hbehind := hvs vs[i - us.length] (List.getElem_mem hlt)
    rw [List.getElem?_append_right hi, List.getElem?_eq_getElem hlt]
    simpa using hbehind

/-- The line starts up to `n` are the first ones of the text, and the others are behind `n`. -/
theorem exists_lineStarts_append (hn : n ≤ src.length) :
    ∃ later, src.lineStarts src.length = src.lineStarts n ++ later ∧
      (∀ v ∈ later, n < v) ∧ ∀ u ∈ src.lineStarts n, u ≤ n := by
  obtain ⟨m, hm⟩ := Nat.exists_eq_add_of_le hn
  refine ⟨(((List.range m).map (n + ·)).filter src.endsLineAt).map (· + 1), ?_, ?_, ?_⟩
  · rw [lineStarts, hm, List.range_add, List.filter_append, List.map_append, ← lineStarts]
  · intro v hv
    obtain ⟨i, hi, rfl⟩ := List.mem_map.1 hv
    obtain ⟨j, -, rfl⟩ := List.mem_map.1 (List.mem_filter.1 hi).1
    omega
  · intro u hu
    obtain ⟨i, hi, rfl⟩ := List.mem_map.1 hu
    exact List.mem_range.1 (List.mem_filter.1 hi).1

/-- Every offset of a text, its end included, has a line in the table, and the lookup gives its
position. -/
theorem lookup_eq (hn : n ≤ src.length) : src.lookup n = some (src.position n) := by
  obtain ⟨later, heq, hlater, hfirst⟩ := exists_lineStarts_append hn
  have hsearch : search (fun i => (0 :: (src.lineStarts n ++ later))[i]?.any (n < ·)) 0
      (0 :: (src.lineStarts n ++ later)).length = (src.lineStarts n).length + 1 :=
    search_append (0 :: src.lineStarts n) later
      (List.forall_mem_cons.2 ⟨Nat.zero_le n, hfirst⟩) hlater
  have hstart : (0 :: (src.lineStarts n ++ later))[(src.lineStarts n).length]? =
      some ((src.lineStarts n).getLast?.getD 0) := by
    rw [← List.cons_append, List.getElem?_append_left (by simp)]
    cases h : (src.lineStarts n).getLast? with
    | none => simp [List.getLast?_eq_none_iff.1 h]
    | some u =>
      obtain ⟨us, hu⟩ := List.getLast?_eq_some_iff.1 h
      simp [hu]
  simp only [lookup, lineTable_eq, heq, hsearch, hstart, Option.map_some, position]
  congr 2
  omega

end Text
end CPreprocessor

import CPreprocessor.Proofs.Lexer.Tokens
import CPreprocessor.Proofs.Outcome
import CPreprocessor.Proofs.Source.Seam
import CPreprocessor.Proofs.Text.Byte
import CPreprocessor.Proofs.Token.Placement

/-!
Scanning across a line end. Glyphs that end in a line break are scanned the same when more
follows: no scanner but that of white space looks behind the line break, and white space
goes on there. Nor does any scanner look at the places of glyphs.
-/

namespace CPreprocessor

theorem Byte.of_isLineBreak {b : UInt8} (h : isLineBreak b = true) :
    isIdent b = false ∧ isDigit b = false ∧ isHex b = false ∧ isExponent b = false ∧
      b ≠ '.'.toUInt8 ∧ b ≠ '/'.toUInt8 ∧ b ≠ apostrophe ∧ b ≠ quote ∧
      Utf8.isTail b = false := by
  rcases isLineBreak_eq_true h with rfl | rfl <;> decide

open Glyph (Leads)

/-- Two cuts that take the same glyphs, up to places. -/
structure Cut.Matches (tail : Option (List Glyph)) (c d : Cut) : Prop where
  taken : c.taken.map Glyph.unplaced = d.taken.map Glyph.unplaced
  rest : Leads tail c.rest d.rest

namespace Cut

variable {tail : Option (List Glyph)} {gs hs : List Glyph}

theorem Matches.none (h : Leads tail gs hs) : Matches tail ⟨[], gs⟩ ⟨[], hs⟩ :=
  ⟨rfl, h⟩

theorem Matches.prepend {c d : Cut} {us vs : List Glyph} (h : Matches tail c d)
    (huv : us.map Glyph.unplaced = vs.map Glyph.unplaced) :
    Matches tail (c.prepend us) (d.prepend vs) := by
  refine ⟨?_, h.rest⟩
  rw [taken_prepend, taken_prepend, List.map_append, List.map_append, huv, h.taken]

theorem Matches.cons {c d : Cut} {g g' : Glyph} (h : Matches tail c d)
    (hg : g.unplaced = g'.unplaced) : Matches tail (c.prepend [g]) (d.prepend [g']) :=
  h.prepend (by rw [List.map_singleton, List.map_singleton, hg])

theorem matches_spanning {p : UInt8 → Bool}
    (hp : ∀ b, Byte.isLineBreak b = true → p b = false) (h : Leads tail gs hs) :
    Matches tail (spanning p gs) (spanning p hs) := by
  induction h with
  | nil => exact .none .nil
  | seam hb hg =>
      simp only [spanning, ← hg, hp _ hb]
      exact .none (.seam hb hg)
  | cons hu h ih =>
      rw [spanning, spanning, ← Glyph.byte_eq hu]
      split
      · exact ih.cons hu
      · exact .none (.cons hu h)

/-- Results of two scans that either both find nothing or take the same glyphs. -/
def Both (tail : Option (List Glyph)) : Option Cut → Option Cut → Prop
  | .none, .none => True
  | some c, some d => Matches tail c d
  | _, _ => False

theorem Both.cons {o o' : Option Cut} {g g' : Glyph} (h : Both tail o o')
    (hg : g.unplaced = g'.unplaced) :
    Both tail (o.map (prepend [g])) (o'.map (prepend [g'])) := by
  cases o with
  | none =>
      cases o' with
      | none => trivial
      | some d => cases h
  | some c =>
      cases o' with
      | none => cases h
      | some d => exact Matches.cons h hg

theorem both_spelled {t : Text} (ht : ∀ b ∈ t, Byte.isLineBreak b = false)
    (h : Leads tail gs hs) : Both tail (spelled t gs) (spelled t hs) := by
  induction t generalizing gs hs with
  | nil => exact Matches.none h
  | cons b t ih =>
      cases h with
      | nil => trivial
      | seam hb hg =>
          have hne : ∀ {c}, Byte.isLineBreak c = true → c ≠ b := by
            rintro c hc rfl
            rw [ht c List.mem_cons_self] at hc
            cases hc
          rw [spelled, spelled, if_neg (hne hb), if_neg (hg ▸ hne hb)]
          trivial
      | cons hu h =>
          rw [spelled, spelled, ← Glyph.byte_eq hu]
          split
          · exact (ih (fun c hc => ht c (List.mem_cons_of_mem b hc)) h).cons hu
          · trivial

end Cut

namespace Lexer

open Glyph Spelling

variable {tail : Option (List Glyph)} {gs hs : List Glyph} {c : Cut}

section Literals

/-- Two scans of a literal that end alike. One that finds an error is not compared. -/
inductive Closing.Matches (tail : Option (List Glyph)) : Closing → Closing → Prop where
  | closed {c d} : Cut.Matches tail c d → Matches tail (.closed c) (.closed d)
  | unclosed {c d} : Cut.Matches tail c d → Matches tail (.unclosed c) (.unclosed d)
  | broken {e q} : Matches tail (.broken e) q

theorem Closing.Matches.prepend {q r : Closing} {us vs : List Glyph}
    (h : Closing.Matches tail q r) (huv : us.map Glyph.unplaced = vs.map Glyph.unplaced) :
    Closing.Matches tail (q.prepend us) (r.prepend vs) := by
  cases h with
  | closed h => exact .closed (h.prepend huv)
  | unclosed h => exact .unclosed (h.prepend huv)
  | broken => exact .broken

theorem hexFirst_leads (h : Leads tail gs hs) (n : Nat) :
    hexFirst n (spelling gs) = hexFirst n (spelling hs) := by
  induction h generalizing n with
  | nil => rfl
  | seam hb hg =>
      cases n with
      | zero => rfl
      | succ n =>
          simp only [spelling, List.map_cons, hexFirst, ← hg, (Byte.of_isLineBreak hb).2.2.1,
            Bool.false_and]
  | cons hu _ ih =>
      cases n with
      | zero => rfl
      | succ n =>
          simp only [spelling, List.map_cons, hexFirst, byte_eq hu] at ih ⊢
          rw [ih n]

theorem escapes_leads {g g' : Glyph} (h : Leads tail (g :: gs) (g' :: hs)) :
    escapes g.byte (spelling gs) = escapes g'.byte (spelling hs) := by
  cases h with
  | seam hb hg =>
      have hnone (t : Text) : escapes g.byte t = false := by
        simp only [Byte.isLineBreak, Bool.or_eq_true, beq_iff_eq] at hb
        rcases hb with hb | hb <;> rw [hb] <;> rfl
      rw [← hg, hnone, hnone]
  | cons hu h => simp only [escapes, byte_eq hu, hexFirst_leads h]

theorem escapeError_leads {g g' : Glyph} (h : Leads tail (g :: gs) (g' :: hs)) (stop stop' : Pos) :
    escapeError stop g gs = none ↔ escapeError stop' g' hs = none := by
  rw [escapeError_eq_none, escapeError_eq_none, escapes_leads h]

variable {tolerant : Bool} {stop stop' : Pos} {mark : UInt8} {g : Glyph}

theorem literalTail_mark (h : g.byte = mark) :
    literalTail tolerant stop mark (g :: gs) = .closed ⟨[g], gs⟩ := by
  cases gs <;> simp only [literalTail, if_pos h]

theorem literalTail_lineBreak (hm : Byte.isLineBreak mark = false)
    (h : Byte.isLineBreak g.byte = true) :
    literalTail tolerant stop mark (g :: gs) = .unclosed ⟨[], g :: gs⟩ := by
  have hne : g.byte ≠ mark := by
    intro heq
    rw [heq, hm] at h
    cases h
  cases gs <;> simp only [literalTail, if_neg hne, if_pos h]

theorem literalTail_leads (hm : Byte.isLineBreak mark = false) (h : Leads tail gs hs) :
    Closing.Matches tail (literalTail tolerant stop mark gs)
      (literalTail tolerant stop' mark hs) := by
  fun_induction literalTail tolerant stop mark gs generalizing hs with
  | case1 =>
      obtain ⟨rfl, rfl⟩ := h.of_nil
      exact .unclosed (.none .nil)
  | case2 g hg =>
      obtain ⟨g', hs, rfl, hu, h⟩ := h.of_cons (by rwa [hg])
      rw [literalTail_mark (by rw [← byte_eq hu, hg])]
      exact .closed ((Cut.Matches.none h).cons hu)
  | case3 g hg hb =>
      obtain ⟨g', hs, rfl, hbyte⟩ := h.head
      rw [literalTail_lineBreak hm (by rwa [← hbyte])]
      exact .unclosed (.none h)
  | case4 g hg hb =>
      obtain ⟨g', hs, rfl, hu, h⟩ := h.of_cons (Bool.eq_false_iff.2 hb)
      obtain ⟨rfl, rfl⟩ := h.of_nil
      rw [byte_eq hu] at hg hb
      simp only [literalTail, if_neg hg, if_neg hb]
      exact .unclosed ((Cut.Matches.none .nil).cons hu)
  | case5 g h' gs hg =>
      obtain ⟨g', hs, rfl, hu, h⟩ := h.of_cons_cons
      rw [literalTail_mark (by rw [← byte_eq hu, hg])]
      exact .closed ((Cut.Matches.none h).cons hu)
  | case6 g h' gs hg hb =>
      obtain ⟨g', hs, rfl, hbyte⟩ := h.head
      rw [literalTail_lineBreak hm (by rwa [← hbyte])]
      exact .unclosed (.none h)
  | case7 g k gs hg hb hbs he ih =>
      obtain ⟨g', hs, rfl, hu, h⟩ := h.of_cons_cons
      obtain ⟨k', hs, rfl, hu', h⟩ := h.of_cons (not_isLineBreak_of_isSimpleEscape he)
      rw [byte_eq hu] at hg hb hbs
      rw [byte_eq hu'] at he
      simp only [literalTail, if_neg hg, if_neg hb, if_pos hbs, if_pos he]
      exact (ih h).prepend (by simp [hu, hu'])
  | case8 g k gs hg hb hbs he e hx ht ih =>
      obtain ⟨g', hs, rfl, hu, h⟩ := h.of_cons_cons
      obtain ⟨k', hs, rfl, hbyte⟩ := h.head
      have hx' : escapeError stop' k' hs ≠ none := by
        rw [Ne, ← escapeError_leads h stop, hx]
        simp
      obtain ⟨e', hx'⟩ := Option.ne_none_iff_exists'.1 hx'
      rw [byte_eq hu] at hg hb hbs
      rw [hbyte] at he
      simp only [literalTail, if_neg hg, if_neg hb, if_pos hbs, if_neg he, hx', if_pos ht]
      exact (ih h).prepend (by simp [hu])
  | case9 => exact .broken
  | case10 g k gs hg hb hbs he hx ih =>
      obtain ⟨g', hs, rfl, hu, h⟩ := h.of_cons_cons
      obtain ⟨k', hs, rfl, hbyte⟩ := h.head
      have hx' := (escapeError_leads h stop stop').1 hx
      rw [byte_eq hu] at hg hb hbs
      rw [hbyte] at he
      simp only [literalTail, if_neg hg, if_neg hb, if_pos hbs, if_neg he, hx']
      exact (ih h).prepend (by simp [hu])
  | case11 g k gs hg hb hbs ih =>
      obtain ⟨g', hs, rfl, hu, h⟩ := h.of_cons_cons
      obtain ⟨k', hs, rfl, -⟩ := h.head
      rw [byte_eq hu] at hg hb hbs
      simp only [literalTail, if_neg hg, if_neg hb, if_neg hbs]
      exact (ih h).prepend (by simp [hu])

end Literals

section Encodings

variable {g g' : Glyph}

theorem charset_leads (hg : g.unplaced = g'.unplaced) (h : Leads tail gs hs) :
    Cut.Matches tail (charset g gs) (charset g' hs) := by
  cases h with
  | nil => exact (Cut.Matches.none .nil).cons hg
  | @seam k k' hs hb hk =>
      have h8 : ∀ {k : Glyph}, Byte.isLineBreak k.byte = true → ¬(k.byte = '8'.toUInt8) := by
        intro k hb heq
        rw [heq] at hb
        cases hb
      rw [charset, charset, if_neg (fun h => h8 hb h.2), if_neg (fun h => h8 (hk ▸ hb) h.2)]
      exact (Cut.Matches.none (.seam hb hk)).cons hg
  | @cons _ k k' ks ks' hk h =>
      rw [charset, charset, ← byte_eq hg, ← byte_eq hk]
      split
      · exact ((Cut.Matches.none h).cons hk).cons hg
      · exact (Cut.Matches.none (.cons hk h)).cons hg

theorem encoding_leads (hg : g.unplaced = g'.unplaced) (h : Leads tail gs hs) :
    Cut.Matches tail (encoding g gs).1 (encoding g' hs).1 ∧
      (encoding g gs).2 = (encoding g' hs).2 := by
  have hc := charset_leads hg h
  unfold encoding
  rw [← byte_eq hg]
  split
  · exact ⟨(Cut.Matches.none h).cons hg, rfl⟩
  · have hrest := hc.rest
    cases hr : (charset g gs).rest with
    | nil =>
        rw [hr] at hrest
        rw [hrest.of_nil.2]
        exact ⟨hc, rfl⟩
    | cons r t =>
        rw [hr] at hrest
        obtain ⟨r', t', hr', hbyte⟩ := hrest.head
        rw [hr']
        rw [hr'] at hrest
        simp only [← hbyte]
        split
        · rename_i hR
          obtain ⟨r₁, t₁, heq, hu, hl⟩ := hrest.of_cons (by rw [hR]; rfl)
          cases heq
          refine ⟨⟨?_, hl⟩, rfl⟩
          rw [List.map_append, List.map_append, hc.taken, List.map_singleton,
            List.map_singleton, hu]
        · exact ⟨hc, rfl⟩

theorem rawDelimiter_leads {start : Pos} (start' : Pos) {last last' : Glyph} {room : Nat}
    (hl : last.unplaced = last'.unplaced) (h : Leads tail gs hs)
    (hc : rawDelimiter start last room gs = .ok c) :
    ∃ d, rawDelimiter start' last' room hs = .ok d ∧ Cut.Matches tail c d := by
  fun_induction rawDelimiter start last room gs generalizing last' hs c with
  | case1 | case2 | case3 | case5 | case6 => cases hc
  | case4 last room g gs hsp ho =>
      cases hc
      obtain ⟨g', hs, rfl, hu, h'⟩ := h.of_cons (by rw [ho]; rfl)
      refine ⟨⟨[], g' :: hs⟩, ?_, .none h⟩
      rw [splices_eq hl] at hsp
      rw [byte_eq hu] at ho
      rw [rawDelimiter, if_neg hsp, if_pos ho]
  | case7 last room g gs hsp ho hbad hroom ih =>
      obtain ⟨c', hc', rfl⟩ := except_map_eq_ok hc
      have hb : Byte.isLineBreak g.byte = false := by
        cases hb : Byte.isLineBreak g.byte with
        | false => rfl
        | true =>
            simp only [Byte.isLineBreak, Bool.or_eq_true, beq_iff_eq] at hb
            rcases hb with hb | hb <;> rw [hb] at hbad <;> cases hbad rfl
      obtain ⟨g', hs, rfl, hu, h⟩ := h.of_cons hb
      obtain ⟨d, hd, hm⟩ := ih hu h hc'
      refine ⟨d.prepend [g'], ?_, hm.cons hu⟩
      rw [splices_eq hl] at hsp
      rw [byte_eq hu] at ho hbad
      rw [rawDelimiter, if_neg hsp, if_neg ho, if_neg hbad, if_neg hroom, hd]
      rfl

theorem noBreak_of_rawDelimiter {start : Pos} {last : Glyph} {room : Nat}
    (h : rawDelimiter start last room gs = .ok c) :
    ∀ b ∈ spelling c.taken, Byte.isLineBreak b = false := by
  intro b hb
  obtain ⟨g, hg, rfl⟩ := List.mem_map.1 hb
  obtain ⟨-, hbad, -⟩ := (delimiter_of_rawDelimiter h).2.2 g hg
  exact not_isLineBreak_of_isBadDelimiter hbad

theorem noBreak_closer {start : Pos} {last : Glyph} {room : Nat}
    (h : rawDelimiter start last room gs = .ok c) :
    ∀ b ∈ ascii ")" ++ spelling c.taken ++ ascii "\"", Byte.isLineBreak b = false := by
  intro b hb
  rcases List.mem_append.1 hb with hb | hb
  · rcases List.mem_append.1 hb with hb | hb
    · obtain rfl := List.mem_singleton.1 hb
      rfl
    · exact noBreak_of_rawDelimiter h b hb
  · obtain rfl := List.mem_singleton.1 hb
    rfl

theorem contiguous_of_ne {b : UInt8} (t : Text) (gs : List Glyph) (h : g.byte ≠ b) :
    contiguous (b :: t) (g :: gs) = none := by
  cases t with
  | nil => exact if_neg h
  | cons c t => exact if_neg fun hb => h hb.1

theorem contiguous_leads {t : Text} (ht : ∀ b ∈ t, Byte.isLineBreak b = false)
    (h : Leads tail gs hs) : Cut.Both tail (contiguous t gs) (contiguous t hs) := by
  induction t generalizing gs hs with
  | nil =>
      rw [contiguous, contiguous]
      exact Cut.Matches.none h
  | cons b t ih =>
      cases h with
      | nil => trivial
      | seam hb hg =>
          have hne : ∀ {c}, Byte.isLineBreak c = true → c ≠ b := by
            rintro c hc rfl
            rw [ht c List.mem_cons_self] at hc
            cases hc
          rw [contiguous_of_ne t [] (hne hb), contiguous_of_ne t _ (hg ▸ hne hb)]
          trivial
      | cons hu h =>
          cases t with
          | nil =>
              rw [contiguous, contiguous, ← byte_eq hu]
              split
              · exact (Cut.Matches.none h).cons hu
              · trivial
          | cons c t =>
              simp only [contiguous, ← byte_eq hu, ← splices_eq hu]
              split
              · exact (ih (fun d hd => ht d (List.mem_cons_of_mem b hd)) h).cons hu
              · trivial

theorem rawBody_leads {closer : Text} (hn : ∀ b ∈ closer, Byte.isLineBreak b = false)
    (h : Leads tail gs hs) (hc : rawBody closer gs = some c) :
    ∃ d, rawBody closer hs = some d ∧ Cut.Matches tail c d := by
  induction gs generalizing hs c with
  | nil => cases hc
  | cons g gs ih =>
      obtain ⟨g', hs', rfl, -⟩ := h.head
      have hboth := contiguous_leads hn h
      simp only [rawBody] at hc ⊢
      cases hx : contiguous closer (g :: gs) with
      | some e =>
          rw [hx] at hc hboth
          cases hc
          cases hy : contiguous closer (g' :: hs') with
          | none =>
              rw [hy] at hboth
              cases hboth
          | some d =>
              rw [hy] at hboth
              exact ⟨d, rfl, hboth⟩
      | none =>
          rw [hx] at hc hboth
          obtain ⟨e, he, rfl⟩ := Option.map_eq_some_iff.1 hc
          cases hy : contiguous closer (g' :: hs') with
          | some d =>
              rw [hy] at hboth
              cases hboth
          | none =>
              cases h with
              | seam _ _ => cases he
              | cons hu h =>
                  obtain ⟨d, hd, hm⟩ := ih h he
                  refine ⟨d.prepend [g'], ?_, hm.cons hu⟩
                  simp only [hd, Option.map_some]

theorem spelling_eq {us vs : List Glyph} (h : us.map unplaced = vs.map unplaced) :
    spelling us = spelling vs := by
  have hb : byte = byte ∘ unplaced := rfl
  rw [spelling, hb, ← List.map_map, h, List.map_map, ← hb, spelling]

theorem rawString_leads {start : Pos} (start' : Pos) {q q' : Glyph} (hq : q.unplaced = q'.unplaced)
    (h : Leads tail gs hs) (hc : rawString start q gs = .ok c) :
    ∃ d, rawString start' q' hs = .ok d ∧ Cut.Matches tail c d := by
  obtain ⟨d, hd, hc⟩ := except_bind_eq_ok hc
  obtain ⟨d', hd', hm⟩ := rawDelimiter_leads start' hq h hd
  -- The opening parenthesis stands in both.
  obtain ⟨o, rest, ho, hbyte⟩ := rawDelimiter_rest hd
  have hrest := hm.rest
  rw [ho] at hrest
  obtain ⟨o', rest', ho', hu, hrest⟩ := hrest.of_cons (by rw [hbyte]; rfl)
  simp only [ho, List.drop_succ_cons, List.drop_zero] at hc
  cases hb : rawBody (ascii ")" ++ spelling d.taken ++ ascii "\"") rest with
  | none =>
      rw [hb] at hc
      cases hc
  | some e =>
      rw [hb] at hc
      cases hc
      obtain ⟨e', he', hm'⟩ := rawBody_leads (noBreak_closer hd) hrest hb
      refine ⟨e'.prepend (q' :: d'.taken ++ d'.rest.take 1), ?_, hm'.prepend ?_⟩
      · rw [spelling_eq hm.taken] at he'
        rw [rawString, hd']
        simp only [except_ok_bind, ho', List.drop_succ_cons, List.drop_zero, he']
      · simp [hq, hm.taken, ho', hu]

end Encodings

section Numbers

variable {g : Glyph}

theorem numberTail_lineBreak (stop : Pos) (gs : List Glyph) (h : Byte.isLineBreak g.byte = true) :
    numberTail stop (g :: gs) = .ok ⟨[], g :: gs⟩ := by
  obtain ⟨hi, -, -, he, hd, -, ha, -⟩ := Byte.of_isLineBreak h
  cases gs <;> simp [numberTail, hi, he, hd, ha]

theorem numberTail_leads {stop : Pos} (stop' : Pos) (h : Leads tail gs hs)
    (hc : numberTail stop gs = .ok c) :
    ∃ d, numberTail stop' hs = .ok d ∧ Cut.Matches tail c d := by
  have hident {b : UInt8} (hb : (Byte.isIdent b || b == '.'.toUInt8) = true) :
      Byte.isLineBreak b = false := by
    cases hl : Byte.isLineBreak b with
    | false => rfl
    | true =>
        obtain ⟨hi, -, -, -, hd, -⟩ := Byte.of_isLineBreak hl
        simp [hi, hd] at hb
  fun_induction numberTail stop gs generalizing hs c with
  | case1 =>
      cases hc
      obtain ⟨rfl, rfl⟩ := h.of_nil
      exact ⟨_, rfl, .none .nil⟩
  | case2 g hg =>
      cases hc
      obtain ⟨g', hs, rfl, hu, h⟩ := h.of_cons (hident hg)
      obtain ⟨rfl, rfl⟩ := h.of_nil
      rw [byte_eq hu] at hg
      exact ⟨_, if_pos hg, (Cut.Matches.none .nil).cons hu⟩
  | case3 | case8 => cases hc
  | case4 g hg ha =>
      cases hc
      cases hl : Byte.isLineBreak g.byte with
      | true =>
          obtain ⟨g', hs, rfl, hbyte⟩ := h.head
          exact ⟨_, numberTail_lineBreak stop' hs (hbyte ▸ hl), .none h⟩
      | false =>
          obtain ⟨g', hs, rfl, hu, h'⟩ := h.of_cons hl
          obtain ⟨rfl, rfl⟩ := h'.of_nil
          rw [byte_eq hu] at hg ha
          exact ⟨_, by rw [numberTail, if_neg hg, if_neg ha], .none h⟩
  | case5 g k gs hx ih =>
      obtain ⟨c', hc', rfl⟩ := except_map_eq_ok hc
      obtain ⟨g', hs, rfl, hu, h⟩ := h.of_cons_cons
      have hk := (Byte.of_isSign (Bool.and_eq_true_iff.1 hx).2).2.2.2
      obtain ⟨k', hs, rfl, hu', h⟩ := h.of_cons hk
      obtain ⟨d, hd, hm⟩ := ih h hc'
      refine ⟨d.prepend [g', k'], ?_, hm.prepend (by simp [hu, hu'])⟩
      rw [byte_eq hu, byte_eq hu'] at hx
      rw [numberTail, if_pos hx, hd]
      rfl
  | case6 g k gs hx hg ih =>
      obtain ⟨c', hc', rfl⟩ := except_map_eq_ok hc
      obtain ⟨g', hs, rfl, hu, h⟩ := h.of_cons_cons
      obtain ⟨d, hd, hm⟩ := ih h hc'
      obtain ⟨k', hs, rfl, hbyte⟩ := h.head
      refine ⟨d.prepend [g'], ?_, hm.cons hu⟩
      rw [byte_eq hu, hbyte] at hx
      rw [byte_eq hu] at hg
      rw [numberTail, if_neg hx, if_pos hg, hd]
      rfl
  | case7 g k gs hx hg ha hk ih =>
      obtain ⟨c', hc', rfl⟩ := except_map_eq_ok hc
      obtain ⟨g', hs, rfl, hu, h⟩ := h.of_cons_cons
      obtain ⟨k', hs, rfl, hu', h⟩ := h.of_cons (hident (by rw [hk, Bool.true_or]))
      obtain ⟨d, hd, hm⟩ := ih h hc'
      refine ⟨d.prepend [g', k'], ?_, hm.prepend (by simp [hu, hu'])⟩
      rw [byte_eq hu, byte_eq hu'] at hx
      rw [byte_eq hu] at hg ha
      rw [byte_eq hu'] at hk
      rw [numberTail, if_neg hx, if_neg hg, if_pos ha, if_pos hk, hd]
      rfl
  | case9 g k gs hx hg ha =>
      cases hc
      obtain ⟨g', hs, rfl, hu, h'⟩ := h.of_cons_cons
      obtain ⟨k', hs, rfl, hbyte⟩ := h'.head
      rw [byte_eq hu, hbyte] at hx
      rw [byte_eq hu] at hg ha
      exact ⟨_, by rw [numberTail, if_neg hx, if_neg hg, if_neg ha], .none h⟩

theorem startsNumber_leads (h : Leads tail gs hs) : startsNumber gs = startsNumber hs := by
  cases h with
  | nil => rfl
  | @seam g g' hs hb hg =>
      obtain ⟨-, hd, -, -, hdot, -⟩ := Byte.of_isLineBreak hb
      cases hs <;> simp [startsNumber, ← hg, hd, hdot]
  | cons hu h =>
      cases h with
      | nil => simp only [startsNumber, byte_eq hu]
      | seam _ hk => simp only [startsNumber, byte_eq hu, hk]
      | cons hk _ => simp only [startsNumber, byte_eq hu, byte_eq hk]

end Numbers

section Comments

theorem blockComment_leads (h : Leads tail gs hs) (hc : blockComment gs = some c) :
    ∃ d, blockComment hs = some d ∧ Cut.Matches tail c d := by
  fun_induction blockComment gs generalizing hs c with
  | case1 | case2 => cases hc
  | case3 g k gs hb =>
      cases hc
      obtain ⟨g', hs, rfl, hu, h⟩ := h.of_cons_cons
      obtain ⟨k', hs, rfl, hu', h⟩ := h.of_cons (by rw [hb.2]; rfl)
      rw [byte_eq hu, byte_eq hu'] at hb
      exact ⟨_, if_pos hb, ((Cut.Matches.none h).cons hu').cons hu⟩
  | case4 g k gs hb ih =>
      obtain ⟨c', hc', rfl⟩ := Option.map_eq_some_iff.1 hc
      obtain ⟨g', hs, rfl, hu, h⟩ := h.of_cons_cons
      obtain ⟨d, hd, hm⟩ := ih h hc'
      obtain ⟨k', hs, rfl, hbyte⟩ := h.head
      refine ⟨d.prepend [g'], ?_, hm.cons hu⟩
      rw [byte_eq hu, hbyte] at hb
      rw [blockComment, if_neg hb, hd]
      rfl

theorem comment_leads_absent (h : Leads tail gs hs) (hc : comment gs = .absent) :
    comment hs = .absent := by
  cases h with
  | nil => rfl
  | @seam g g' hs hb hg =>
      have hne := (Byte.of_isLineBreak hb).2.2.2.2.2.1
      rw [hg] at hne
      cases hs with
      | nil => rfl
      | cons k hs => rw [comment, if_neg (fun h => hne h.1), if_neg (fun h => hne h.1)]
  | @cons _ g g' gs hs hu h =>
      cases gs with
      | nil =>
          rw [h.of_nil.2]
          rfl
      | cons k gs =>
          obtain ⟨k', hs, rfl, hk⟩ := h.head
          simp only [comment, ← byte_eq hu, ← hk] at hc ⊢
          split at hc
          · split at hc <;> cases hc
          · rename_i hb
            rw [if_neg hb]
            split at hc
            · cases hc
            · rename_i hl
              exact if_neg hl

theorem comment_leads (h : Leads tail gs hs) (hc : comment gs = .found c) :
    ∃ d, comment hs = .found d ∧ Cut.Matches tail c d := by
  match gs with
  | [] | [_] => cases hc
  | g :: k :: gs =>
      obtain ⟨g', hs, rfl, hu, h⟩ := h.of_cons_cons
      have hbyte : ∀ {b : UInt8}, Byte.isLineBreak b = false → k.byte = b →
          ∃ k' hs', hs = k' :: hs' ∧ k.unplaced = k'.unplaced ∧ Leads tail gs hs' := by
        intro b hb hk
        exact h.of_cons (by rw [hk, hb])
      simp only [comment] at hc
      split at hc
      · rename_i hb
        obtain ⟨k', hs, rfl, hu', h⟩ := hbyte rfl hb.2
        rw [byte_eq hu, byte_eq hu'] at hb
        cases hx : blockComment gs with
        | none =>
            rw [hx] at hc
            cases hc
        | some e =>
            rw [hx] at hc
            cases hc
            obtain ⟨d, hd, hm⟩ := blockComment_leads h hx
            refine ⟨d.prepend [g', k'], ?_, hm.prepend (by simp [hu, hu'])⟩
            rw [comment, if_pos hb, hd]
      · rename_i hb
        split at hc
        · rename_i hl
          cases hc
          obtain ⟨k', hs, rfl, hu', h⟩ := hbyte rfl hl.2
          rw [byte_eq hu, byte_eq hu'] at hb hl
          have hm := Cut.matches_spanning (p := fun b => !Byte.isLineBreak b)
            (fun b hb => by simp [hb]) h
          refine ⟨Cut.prepend [g', k'] _, ?_, hm.prepend (by simp [hu, hu'])⟩
          rw [comment, if_neg hb, if_pos hl]
        · cases hc

end Comments
end Lexer
end CPreprocessor

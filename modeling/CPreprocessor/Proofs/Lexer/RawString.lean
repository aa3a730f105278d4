import CPreprocessor.Lexer.Literal
import CPreprocessor.Proofs.Source.Splicing
import CPreprocessor.Proofs.Text.Byte

/-!
A raw string is recognised by its glyphs alone. Glyphs like those a scan took are taken as
a raw string again, wherever they stand and whatever follows them.
-/

namespace CPreprocessor
namespace Lexer

open Glyph

theorem length_of_contiguous {t : Text} {gs : List Glyph} {c : Cut}
    (h : contiguous t gs = some c) : c.taken.length = t.length := by
  fun_induction contiguous t gs generalizing c with
  | case1 gs => cases h; rfl
  | case2 | case4 | case6 => cases h
  | case3 g gs => cases h; rfl
  | case5 b t g gs _ _ ih =>
      obtain ⟨d, hd, rfl⟩ := Option.map_eq_some_iff.1 h
      exact congrArg (· + 1) (ih hd)

/-- The closing delimiter is found again where it was found. -/
theorem contiguous_alike {t : Text} {gs hs rest : List Glyph} (h : Alike hs gs)
    (rest' : List Glyph) (hc : contiguous t (gs ++ rest) = some ⟨gs, rest⟩) :
    contiguous t (hs ++ rest') = some ⟨hs, rest'⟩ := by
  have hl : gs.length = t.length := length_of_contiguous hc
  induction h generalizing t with
  | @last h g hb =>
      match t, hl with
      | [b], _ =>
          simp only [List.cons_append, List.nil_append, contiguous, hb] at hc ⊢
          by_cases hg : g.byte = b
          · simp [hg]
          · simp [hg] at hc
  | @cons h g hs gs hb hs' ha ih =>
      match t, hl with
      | [b], hl =>
          cases ha <;> simp at hl
      | b :: b' :: t, hl =>
          simp only [List.cons_append, contiguous, hb, hs'] at hc ⊢
          by_cases hg : g.byte = b ∧ g.splices = []
          · simp only [hg, and_self, if_true] at hc ⊢
            obtain ⟨d, hd, he⟩ := Option.map_eq_some_iff.1 hc
            have hd' : d = ⟨gs, rest⟩ := by
              cases d
              simpa [Cut.prepend] using he
            rw [ih (hd' ▸ hd) (Nat.succ.inj hl)]
            rfl
          · simp [hg] at hc

/-- The closing delimiter is not found where it was not found and more was taken. -/
theorem contiguous_eq_none_alike {t : Text} {gs hs rest : List Glyph} (h : Alike hs gs)
    (rest' : List Glyph) (hl : t.length < gs.length) (hc : contiguous t (gs ++ rest) = none) :
    contiguous t (hs ++ rest') = none := by
  induction h generalizing t with
  | @last h g hb =>
      match t, hl with
      | [], _ => simp [contiguous] at hc
  | @cons h g hs gs hb hs' ha ih =>
      match t, hl with
      | [], _ => simp [contiguous] at hc
      | [b], hl =>
          simp only [List.cons_append, contiguous, hb] at hc ⊢
          by_cases hg : g.byte = b
          · simp [hg] at hc
          · simp [hg]
      | b :: b' :: t, hl =>
          simp only [List.cons_append, contiguous, hb, hs'] at hc ⊢
          by_cases hg : g.byte = b ∧ g.splices = []
          · simp only [hg, and_self, if_true, Option.map_eq_none_iff] at hc ⊢
            exact ih (Nat.lt_of_succ_lt_succ hl) hc
          · simp only [hg, if_false]

theorem length_of_rawBody {closer : Text} {gs : List Glyph} {c : Cut}
    (h : rawBody closer gs = some c) : closer.length ≤ c.taken.length := by
  induction gs generalizing c with
  | nil => cases h
  | cons g gs ih =>
      simp only [rawBody] at h
      split at h
      · rename_i d hd
        cases h
        exact Nat.le_of_eq (length_of_contiguous hd).symm
      · obtain ⟨d, hd, rfl⟩ := Option.map_eq_some_iff.1 h
        exact Nat.le_succ_of_le (ih hd)

theorem prepend_eq_mk {g : Glyph} {gs rest : List Glyph} {d : Cut}
    (h : d.prepend [g] = ⟨g :: gs, rest⟩) : d = ⟨gs, rest⟩ := by
  cases d
  simpa [Cut.prepend] using h

theorem rawBody_alike {closer : Text} {gs hs rest : List Glyph} (h : Alike hs gs)
    (hn : closer ≠ []) (rest' : List Glyph)
    (hb : rawBody closer (gs ++ rest) = some ⟨gs, rest⟩) :
    rawBody closer (hs ++ rest') = some ⟨hs, rest'⟩ := by
  induction h with
  | @last h g hbyte =>
      have ha : Alike [h] [g] := .last hbyte
      simp only [List.cons_append, rawBody] at hb ⊢
      split at hb
      · rename_i d hd
        cases hb
        have hc := contiguous_alike ha rest' hd
        rw [List.cons_append] at hc
        rw [hc]
      · obtain ⟨d, hd, he⟩ := Option.map_eq_some_iff.1 hb
        have hl := length_of_rawBody hd
        rw [prepend_eq_mk he] at hl
        exact absurd (List.length_eq_zero_iff.1 (Nat.le_zero.1 hl)) hn
  | @cons h g hs gs hbyte hs' ha ih =>
      have ha' : Alike (h :: hs) (g :: gs) := .cons hbyte hs' ha
      simp only [List.cons_append, rawBody] at hb ⊢
      split at hb
      · rename_i d hd
        cases hb
        have hc := contiguous_alike ha' rest' hd
        rw [List.cons_append] at hc
        rw [hc]
      · rename_i hnone
        obtain ⟨d, hd, he⟩ := Option.map_eq_some_iff.1 hb
        rw [prepend_eq_mk he] at hd
        have hl : closer.length < (g :: gs).length := Nat.lt_succ_of_le (length_of_rawBody hd)
        have hc := contiguous_eq_none_alike ha' rest' hl hnone
        rw [List.cons_append] at hc
        rw [hc, ih hd]
        rfl

theorem rawDelimiter_rest {start : Pos} {last : Glyph} {room : Nat} {gs : List Glyph} {d : Cut}
    (h : rawDelimiter start last room gs = .ok d) :
    ∃ o rest, d.rest = o :: rest ∧ o.byte = '('.toUInt8 := by
  fun_induction rawDelimiter start last room gs generalizing d with
  | case1 | case2 | case3 | case5 | case6 => cases h
  | case4 _ _ g gs _ ho => cases h; exact ⟨g, gs, rfl, ho⟩
  | case7 _ _ g gs _ _ _ _ ih =>
      obtain ⟨e, he, rfl⟩ := except_map_eq_ok h
      rw [Cut.rest_prepend]
      exact ih he

theorem not_isLineBreak_of_isBadDelimiter {b : UInt8} (h : isBadDelimiter b = false) :
    Byte.isLineBreak b = false := by
  cases hb : Byte.isLineBreak b with
  | false => rfl
  | true => obtain rfl | rfl := Byte.isLineBreak_eq_true hb <;> cases h

/-- A delimiter has bytes that may stand there, and not more than there is room for. -/
theorem delimiter_of_rawDelimiter {start : Pos} {last : Glyph} {room : Nat} {gs : List Glyph}
    {d : Cut} (h : rawDelimiter start last room gs = .ok d) :
    last.splices = [] ∧ d.taken.length ≤ room ∧
      ∀ g ∈ d.taken, g.splices = [] ∧ isBadDelimiter g.byte = false ∧
        g.byte ≠ '('.toUInt8 := by
  fun_induction rawDelimiter start last room gs generalizing d with
  | case1 | case2 | case3 | case5 | case6 => cases h
  | case4 last room g gs hlast _ =>
      cases h
      exact ⟨Decidable.not_not.1 hlast, Nat.zero_le room, by simp⟩
  | case7 last room g gs hlast ho hbad hroom ih =>
      obtain ⟨e, he, rfl⟩ := except_map_eq_ok h
      obtain ⟨hg, hlength, hall⟩ := ih he
      refine ⟨Decidable.not_not.1 hlast, ?_, ?_⟩
      · rw [Cut.taken_prepend, List.length_append, List.length_singleton]
        omega
      · exact List.forall_mem_cons.2 ⟨⟨hg, Bool.eq_false_iff.2 hbad, ho⟩, hall⟩

/-- The delimiter of a raw string is read again, up to its opening parenthesis. -/
theorem rawDelimiter_alike {start : Pos} {last : Glyph} {room : Nat} {ds gs hs rest : List Glyph}
    {o : Glyph} (h : rawDelimiter start last room (ds ++ o :: rest) = .ok ⟨ds, o :: rest⟩)
    (ha : Alike hs (ds ++ o :: gs)) (hgs : gs ≠ []) {last' : Glyph}
    (hl : last'.splices = last.splices) (start' : Pos) :
    ∃ ds' o' gs', hs = ds' ++ o' :: gs' ∧ spelling ds' = spelling ds ∧ Alike gs' gs ∧
      ∀ rest', rawDelimiter start' last' room (ds' ++ o' :: rest') =
        .ok ⟨ds', o' :: rest'⟩ := by
  induction ds generalizing last room hs last' with
  | nil =>
      simp only [List.nil_append, rawDelimiter] at h ha
      cases ha with
      | last _ => contradiction
      | @cons o' _ gs' _ hb hs' ha =>
          refine ⟨[], o', gs', rfl, rfl, ha, fun rest' => ?_⟩
          split at h
          · cases h
          · rename_i hsp
            split at h
            · rename_i ho
              simp [rawDelimiter, hl, hsp, hb, ho]
            · repeat' split at h
              · cases h
              · cases h
              · obtain ⟨e, he, he'⟩ := except_map_eq_ok h
                cases he'
  | cons g ds ih =>
      have hds : ds ++ o :: gs ≠ [] := by simp
      simp only [List.cons_append, rawDelimiter] at h ha
      generalize hxs : ds ++ o :: gs = xs at ha hds
      cases ha with
      | last _ => contradiction
      | @cons g' _ hs _ hb hs' ha =>
          split at h
          · cases h
          · rename_i hsp
            split at h
            · cases h
            · rename_i ho
              split at h
              · cases h
              · rename_i hbad
                split at h
                · cases h
                · rename_i hroom
                  obtain ⟨e, he, he'⟩ := except_map_eq_ok h
                  rw [prepend_eq_mk he'] at he
                  obtain ⟨ds', o', gs', rfl, hsp', ha', hr⟩ := ih he (hxs ▸ ha) hs'
                  refine ⟨g' :: ds', o', gs', rfl, by simp [hb, hsp'], ha', fun rest' => ?_⟩
                  simp only [List.cons_append, rawDelimiter, hl, hsp, if_false, hb, ho, hbad,
                    hroom, hr]
                  rfl

/-- A raw string is a delimiter, a parenthesis and a body. -/
theorem rawString_eq_ok {start : Pos} {q : Glyph} {gs : List Glyph} {c : Cut}
    (h : rawString start q gs = .ok c) :
    ∃ ds o bs b, gs = ds ++ o :: bs ∧
      rawDelimiter start q maxDelimiter gs = .ok ⟨ds, o :: bs⟩ ∧
      rawBody (ascii ")" ++ spelling ds ++ ascii "\"") bs = some b ∧
      c = b.prepend (q :: ds ++ [o]) := by
  unfold rawString at h
  cases hd : rawDelimiter start q maxDelimiter gs with
  | error e => simp [hd, bind, Except.bind] at h
  | ok d =>
      obtain ⟨o, bs, ho, -⟩ := rawDelimiter_rest hd
      have hw := whole_of_rawDelimiter hd
      obtain ⟨ds, _⟩ := d
      subst ho
      simp only [hd, bind, Except.bind, List.drop_succ_cons, List.drop_zero] at h
      split at h
      · rename_i b hb
        cases h
        exact ⟨ds, o, bs, b, hw.symm, rfl, hb, rfl⟩
      · cases h

theorem taken_of_rawString {start : Pos} {q : Glyph} {gs : List Glyph} {c : Cut}
    (h : rawString start q gs = .ok c) : ∃ ts, c.taken = q :: ts := by
  obtain ⟨ds, o, bs, b, -, -, -, rfl⟩ := rawString_eq_ok h
  exact ⟨ds ++ [o] ++ b.taken, rfl⟩

/-- Glyphs like those of a raw string are a raw string. -/
theorem rawString_alike {start : Pos} {q : Glyph} {gs : List Glyph} {c : Cut}
    (h : rawString start q gs = .ok c) {q' : Glyph} {hs : List Glyph}
    (ha : Alike (q' :: hs) c.taken) (start' : Pos) (rest' : List Glyph) :
    rawString start' q' (hs ++ rest') = .ok ⟨q' :: hs, rest'⟩ := by
  obtain ⟨ds, o, bs', ⟨bs, brest⟩, rfl, hd, hb, rfl⟩ := rawString_eq_ok h
  have hbw := whole_of_rawBody hb
  simp only [Cut.whole_mk] at hbw
  subst hbw
  have hne : ascii ")" ++ spelling ds ++ ascii "\"" ≠ [] := by simp [ascii]
  have hbs : bs ≠ [] := by
    rintro rfl
    have := length_of_rawBody hb
    simp [ascii] at this
  simp only [Cut.taken_prepend, List.cons_append, List.append_assoc, List.nil_append] at ha
  generalize hxs : ds ++ o :: bs = xs at ha
  cases ha with
  | last _ => simp at hxs
  | cons hq hqs ha =>
      obtain ⟨ds', o', bs', rfl, hsp, hab, hr⟩ :=
        rawDelimiter_alike hd (hxs ▸ ha) hbs hqs start'
      have hbody := rawBody_alike hab hne rest' hb
      simp only [rawString, List.append_assoc, List.cons_append, hr, bind, Except.bind,
        List.drop_succ_cons, List.drop_zero, hsp]
      simp only [List.append_assoc] at hbody
      simp only [hbody, Cut.prepend, List.take_succ_cons, List.take_zero,
        List.cons_append, List.append_assoc, List.nil_append]

end Lexer
end CPreprocessor

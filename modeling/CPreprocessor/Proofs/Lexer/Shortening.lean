import CPreprocessor.Proofs.Lexer.Seam
import CPreprocessor.Proofs.Lexer.TolerantScan

/-!
Glyphs cut off behind a line break. What a tolerant scan takes from the whole of them it takes
from the first part too, if more is left behind it than the second part: a scanner that fails in
front of a line break fails whatever follows, and one that would only end behind it takes more.
-/

namespace CPreprocessor

open Glyph (Leads byte_eq splices_eq)

theorem Glyph.Leads.length_eq {ks gs hs : List Glyph} (h : Leads (some ks) gs hs) :
    hs.length = gs.length + ks.length := by
  generalize htail : some ks = tail at h
  induction h with
  | nil => cases htail
  | seam =>
      cases htail
      simp [Nat.add_comm]
  | cons _ _ ih =>
      rw [List.length_cons, List.length_cons, ih htail]
      omega

/-- Glyphs that end in a line break lead to whatever is put behind them. -/
theorem Glyph.leads_append {gs : List Glyph}
    (hlast : ∃ g ∈ gs.getLast?, Byte.isLineBreak g.byte = true) (ks : List Glyph) :
    Leads (some ks) gs (gs ++ ks) := by
  induction gs with
  | nil =>
      obtain ⟨g, hg, -⟩ := hlast
      cases hg
  | cons g gs ih =>
      cases gs with
      | nil =>
          obtain ⟨g₁, hg, hb⟩ := hlast
          cases hg
          exact .seam hb rfl
      | cons g₁ gs =>
          rw [List.getLast?_cons_cons] at hlast
          exact .cons rfl (ih hlast)

theorem Cut.Matches.rest_eq {tail : Option (List Glyph)} {c d : Cut} {us : List Glyph}
    (h : Matches tail c d) (hw : c.whole = d.taken ++ us) : c.rest = us :=
  (List.append_inj hw (by simpa using congrArg List.length h.taken)).2

namespace Lexer

variable {ks gs hs : List Glyph} {d : Cut}

section Comments

theorem length_of_blockComment (h : blockComment gs = some d) :
    d.rest.length + 2 ≤ gs.length := by
  fun_induction blockComment gs generalizing d with
  | case1 | case2 => cases h
  | case3 => cases h; simp
  | case4 g k gs _ ih =>
      obtain ⟨c, hc, rfl⟩ := Option.map_eq_some_iff.1 ‹_›
      have hlen := ih hc
      exact Nat.le_succ_of_le hlen

theorem blockComment_of_leads (h : Leads (some ks) gs hs) (hd : blockComment hs = some d)
    (hrest : ks.length ≤ d.rest.length) : ∃ c, blockComment gs = some c := by
  fun_induction blockComment gs generalizing hs d with
  | case1 => cases h.of_nil.1
  | case2 g =>
      have hlen := length_of_blockComment hd
      rw [h.length_eq, List.length_singleton] at hlen
      omega
  | case3 g k gs => exact ⟨_, rfl⟩
  | case4 g k gs hb ih =>
      obtain ⟨g', hs, rfl, hu, h⟩ := h.of_cons_cons
      obtain ⟨k', hs, rfl, hk⟩ := h.head
      rw [byte_eq hu, hk] at hb
      rw [blockComment, if_neg hb] at hd
      obtain ⟨e, he, rfl⟩ := Option.map_eq_some_iff.1 hd
      obtain ⟨c, hc⟩ := ih h he hrest
      exact ⟨_, by rw [hc]; rfl⟩

/-- A comment that is not closed in front of the line break is closed behind it if at all. -/
theorem comment_leads_unterminated (h : Leads (some ks) gs hs) (hc : comment gs = .unterminated) :
    comment hs = .unterminated ∨ ∃ d, comment hs = .found d ∧ d.rest.length < ks.length := by
  match gs with
  | [] | [_] => cases hc
  | g :: k :: gs =>
      obtain ⟨g', hs, rfl, hu, h⟩ := h.of_cons_cons
      simp only [comment] at hc
      split at hc
      · rename_i hb
        obtain ⟨k', hs, rfl, hu', h⟩ := h.of_cons (by rw [hb.2]; rfl)
        rw [byte_eq hu, byte_eq hu'] at hb
        rw [comment, if_pos hb]
        cases hd : blockComment hs with
        | none => exact .inl rfl
        | some d =>
            refine .inr ⟨_, rfl, Nat.lt_of_not_le fun hrest => ?_⟩
            obtain ⟨c, hc'⟩ := blockComment_of_leads h hd hrest
            rw [hc'] at hc
            cases hc
      · split at hc <;> cases hc

theorem comment_of_leads (h : Leads (some ks) gs hs) (hd : comment hs = .found d)
    (hrest : ks.length ≤ d.rest.length) :
    ∃ c, comment gs = .found c ∧ Cut.Matches (some ks) c d := by
  cases hc : comment gs with
  | absent =>
      rw [comment_leads_absent h hc] at hd
      cases hd
  | unterminated =>
      rcases comment_leads_unterminated h hc with hu | ⟨e, he, hlen⟩
      · rw [hu] at hd
        cases hd
      · rw [he] at hd
        cases hd
        exact absurd hrest (Nat.not_le_of_lt hlen)
  | found c =>
      obtain ⟨e, he, hm⟩ := comment_leads h hc
      rw [he] at hd
      cases hd
      exact ⟨c, rfl, hm⟩

theorem length_of_space {s : Space} (h : space gs = some s) : s.cut.rest.length ≤ gs.length := by
  rw [← whole_of_space h, Cut.length_whole]
  exact Nat.le_add_left _ _

theorem space_of_leads (h : Leads (some ks) gs hs) {s : Space} (hs' : space hs = some s)
    (hrest : ks.length ≤ s.cut.rest.length) : ∃ r, space gs = some r := by
  fun_induction space gs generalizing hs s with
  | case1 => exact ⟨_, rfl⟩
  | case2 g t hb ih =>
      cases h with
      | seam => exact ⟨_, by rw [space]; rfl⟩
      | cons hu h =>
          rw [space, if_pos (byte_eq hu ▸ hb)] at hs'
          obtain ⟨u, hu, rfl⟩ := Option.map_eq_some_iff.1 hs'
          obtain ⟨r, hr⟩ := ih h hu hrest
          exact ⟨_, by rw [hr]; rfl⟩
  | case3 g t hb hl ih =>
      obtain ⟨g', hs, rfl, hu, h⟩ := h.of_cons (Bool.eq_false_iff.2 hb)
      rw [byte_eq hu] at hb hl
      rw [space, if_neg hb, if_pos hl] at hs'
      obtain ⟨u, hu, rfl⟩ := Option.map_eq_some_iff.1 hs'
      obtain ⟨r, hr⟩ := ih h hu hrest
      exact ⟨_, by rw [hr]; rfl⟩
  | case4 g t => exact ⟨_, rfl⟩
  | case5 g t hb hl hc =>
      have hcomment := comment_leads_unterminated h hc
      obtain ⟨g', hs, rfl, hbyte⟩ := h.head
      rw [hbyte] at hb hl
      rcases hcomment with hd | ⟨d, hd, hlen⟩
      · rw [space_of_unterminated hb hl hd] at hs'
        cases hs'
      · rw [space_of_found hb hl hd] at hs'
        obtain ⟨u, hu, rfl⟩ := Option.map_eq_some_iff.1 hs'
        have hle := length_of_space hu
        exact absurd (Nat.le_trans hrest hle) (Nat.not_le_of_lt hlen)
  | case6 g t hb hl c hc ih =>
      obtain ⟨d, hd, hm⟩ := comment_leads h hc
      obtain ⟨g', hs, rfl, hbyte⟩ := h.head
      rw [hbyte] at hb hl
      rw [space_of_found hb hl hd] at hs'
      obtain ⟨u, hu, rfl⟩ := Option.map_eq_some_iff.1 hs'
      obtain ⟨r, hr⟩ := ih hm.rest hu hrest
      exact ⟨_, by rw [hr]; rfl⟩

end Comments

theorem numberTail_of_leads (stop : Pos) {stop' : Pos} (h : Leads (some ks) gs hs)
    (hd : numberTail stop' hs = .ok d) : ∃ c, numberTail stop gs = .ok c := by
  fun_induction numberTail stop gs generalizing hs d with
  | case1 | case2 | case4 | case9 => exact ⟨_, rfl⟩
  | case3 g _ ha =>
      obtain ⟨_, _, -, -, h⟩ := h.of_cons (by rw [ha]; rfl)
      cases h.of_nil.1
  | case5 g k gs hx ih =>
      obtain ⟨g', hs, rfl, hu, h⟩ := h.of_cons_cons
      have hk := (Byte.of_isSign (Bool.and_eq_true_iff.1 hx).2).2.2.2
      obtain ⟨k', hs, rfl, hu', h⟩ := h.of_cons hk
      rw [byte_eq hu, byte_eq hu'] at hx
      rw [numberTail, if_pos hx] at hd
      obtain ⟨e, he, -⟩ := except_map_eq_ok hd
      obtain ⟨c, hc⟩ := ih h he
      exact ⟨_, by rw [hc]; rfl⟩
  | case6 g k gs hx hg ih =>
      obtain ⟨g', hs, rfl, hu, h⟩ := h.of_cons_cons
      obtain ⟨k', hs, rfl, hbyte⟩ := h.head
      rw [byte_eq hu, hbyte] at hx
      rw [byte_eq hu] at hg
      rw [numberTail, if_neg hx, if_pos hg] at hd
      obtain ⟨e, he, -⟩ := except_map_eq_ok hd
      obtain ⟨c, hc⟩ := ih h he
      exact ⟨_, by rw [hc]; rfl⟩
  | case7 g k gs hx hg ha hk ih =>
      obtain ⟨g', hs, rfl, hu, h⟩ := h.of_cons_cons
      obtain ⟨k', hs, rfl, hu', h⟩ := h.of_cons (Byte.of_isIdent hk).1
      rw [byte_eq hu, byte_eq hu'] at hx
      rw [byte_eq hu] at hg ha
      rw [byte_eq hu'] at hk
      rw [numberTail, if_neg hx, if_neg hg, if_pos ha, if_pos hk] at hd
      obtain ⟨e, he, -⟩ := except_map_eq_ok hd
      obtain ⟨c, hc⟩ := ih h he
      exact ⟨_, by rw [hc]; rfl⟩
  | case8 g k gs hx hg ha hk =>
      obtain ⟨g', hs, rfl, hu, h⟩ := h.of_cons_cons
      obtain ⟨k', hs, rfl, hbyte⟩ := h.head
      rw [byte_eq hu, hbyte] at hx
      rw [byte_eq hu] at hg ha
      rw [hbyte] at hk
      rw [numberTail, if_neg hx, if_neg hg, if_pos ha, if_neg hk] at hd
      cases hd

section Encodings

theorem rawDelimiter_of_leads (start : Pos) {start' : Pos} {last last' : Glyph} {room : Nat}
    (hl : last.unplaced = last'.unplaced) (h : Leads (some ks) gs hs)
    (hd : rawDelimiter start' last' room hs = .ok d) :
    ∃ c, rawDelimiter start last room gs = .ok c := by
  fun_induction rawDelimiter start last room gs generalizing last' hs d with
  | case1 | case2 => cases h.of_nil.1
  | case3 last room g gs hsp =>
      obtain ⟨g', hs, rfl, -⟩ := h.head
      rw [splices_eq hl] at hsp
      rw [rawDelimiter, if_pos hsp] at hd
      cases hd
  | case4 => exact ⟨_, rfl⟩
  | case5 last room g gs hsp ho hbad =>
      obtain ⟨g', hs, rfl, hbyte⟩ := h.head
      rw [splices_eq hl] at hsp
      rw [hbyte] at ho hbad
      rw [rawDelimiter, if_neg hsp, if_neg ho, if_pos hbad] at hd
      cases hd
  | case6 last g gs hsp ho hbad =>
      obtain ⟨g', hs, rfl, hbyte⟩ := h.head
      rw [splices_eq hl] at hsp
      rw [hbyte] at ho hbad
      rw [rawDelimiter, if_neg hsp, if_neg ho, if_neg hbad, if_pos rfl] at hd
      cases hd
  | case7 last room g gs hsp ho hbad hroom ih =>
      have hb := not_isLineBreak_of_isBadDelimiter (Bool.eq_false_iff.2 hbad)
      obtain ⟨g', hs, rfl, hu, h⟩ := h.of_cons hb
      rw [splices_eq hl] at hsp
      rw [byte_eq hu] at ho hbad
      rw [rawDelimiter, if_neg hsp, if_neg ho, if_neg hbad, if_neg hroom] at hd
      obtain ⟨e, he, -⟩ := except_map_eq_ok hd
      obtain ⟨c, hc⟩ := ih hu h he
      exact ⟨_, by rw [hc]; rfl⟩

theorem rawBody_of_leads {closer : Text} (hne : closer ≠ [])
    (hn : ∀ b ∈ closer, Byte.isLineBreak b = false) (h : Leads (some ks) gs hs)
    (hd : rawBody closer hs = some d) (hrest : ks.length ≤ d.rest.length) :
    ∃ c, rawBody closer gs = some c := by
  induction gs generalizing hs d with
  | nil => cases h.of_nil.1
  | cons g gs ih =>
      obtain ⟨g', hs', rfl, -⟩ := h.head
      have hboth := contiguous_leads hn h
      simp only [rawBody] at hd ⊢
      cases hx : contiguous closer (g :: gs) with
      | some c => exact ⟨c, rfl⟩
      | none =>
          rw [hx] at hboth
          cases hy : contiguous closer (g' :: hs') with
          | some e =>
              rw [hy] at hboth
              cases hboth
          | none =>
              rw [hy] at hd
              obtain ⟨e, he, rfl⟩ := Option.map_eq_some_iff.1 hd
              cases h with
              | seam =>
                  -- The closer would be found in the tail.
                  have hlen := length_of_rawBody he
                  have hpos := List.length_pos_iff.2 hne
                  have hwhole := congrArg List.length (whole_of_rawBody he)
                  rw [Cut.length_whole] at hwhole
                  rw [Cut.rest_prepend] at hrest
                  omega
              | cons _ h =>
                  obtain ⟨c, hc⟩ := ih h he hrest
                  exact ⟨_, by rw [hc]; rfl⟩

theorem rawString_of_leads (start : Pos) {start' : Pos} {q q' : Glyph}
    (hq : q.unplaced = q'.unplaced) (h : Leads (some ks) gs hs)
    (hd : rawString start' q' hs = .ok d) (hrest : ks.length ≤ d.rest.length) :
    ∃ c, rawString start q gs = .ok c := by
  obtain ⟨e', he', hd⟩ := except_bind_eq_ok hd
  obtain ⟨e, he⟩ := rawDelimiter_of_leads start hq h he'
  obtain ⟨f, hf, hm⟩ := rawDelimiter_leads start' hq h he
  obtain rfl := Except.ok.inj (he'.symm.trans hf)
  obtain ⟨o, rest, ho, hbyte⟩ := rawDelimiter_rest he
  have hlead := hm.rest
  rw [ho] at hlead
  obtain ⟨o', rest', ho', -, hlead⟩ := hlead.of_cons (by rw [hbyte]; rfl)
  simp only [ho', List.drop_succ_cons, List.drop_zero, ← spelling_eq hm.taken] at hd
  rw [rawString, he]
  simp only [except_ok_bind, ho, List.drop_succ_cons, List.drop_zero]
  cases hb : rawBody (ascii ")" ++ Glyph.spelling e.taken ++ ascii "\"") rest' with
  | none =>
      rw [hb] at hd
      cases hd
  | some b =>
      rw [hb] at hd
      cases hd
      obtain ⟨c, hc⟩ := rawBody_of_leads (by simp [ascii]) (noBreak_closer he) hlead hb hrest
      rw [hc]
      exact ⟨_, rfl⟩

variable {g g' : Glyph} {stop' : Pos} {y : Lexeme}

theorem exists_quotedLexeme (start stop : Pos) (kind : Kind) (letters : List Glyph) (q : Glyph)
    (gs : List Glyph) : ∃ x, quotedLexeme true start stop kind letters q gs = .ok x := by
  cases hx : quotedLexeme true start stop kind letters q gs with
  | ok x => exact ⟨x, rfl⟩
  | error e => exact absurd hx (quotedLexeme_tolerant_ne_error e)

theorem encodedLexeme_of_leads (stop : Pos) (hg : g.unplaced = g'.unplaced)
    (h : Leads (some ks) gs hs) (hy : encodedLexeme true stop' g' hs = .ok y)
    (hrest : ks.length ≤ y.cut.rest.length) : ∃ x, encodedLexeme true stop g gs = .ok x := by
  obtain ⟨hm, hraw⟩ := encoding_leads hg h
  unfold encodedLexeme at hy ⊢
  generalize encoding g gs = e at hm hraw
  generalize encoding g' hs = f at hm hraw hy
  obtain ⟨letters, raw⟩ := e
  obtain ⟨letters', raw'⟩ := f
  simp only at hm hraw hy ⊢
  subst hraw
  have hlead := hm.rest
  cases hr : letters.rest with
  | nil => exact ⟨_, rfl⟩
  | cons q t =>
      rw [hr] at hlead
      simp only
      split
      · rename_i hq
        cases raw with
        | false => exact exists_quotedLexeme _ _ _ _ _ _
        | true =>
            obtain ⟨q', t', hr', hu, hl⟩ := hlead.of_cons (by rw [hq]; rfl)
            rw [byte_eq hu] at hq
            simp only [hr', if_pos hq, if_true] at hy ⊢
            obtain ⟨d, hd, rfl⟩ := except_map_eq_ok hy
            obtain ⟨c, hc⟩ := rawString_of_leads g.pos hu hl hd hrest
            rw [hc]
            exact ⟨_, rfl⟩
      · split
        · exact exists_quotedLexeme _ _ _ _ _ _
        · exact ⟨_, rfl⟩

end Encodings

variable {g g' : Glyph} {stop' : Pos} {y : Lexeme}

theorem solidLexeme_of_leads (stop : Pos) (hg : g.unplaced = g'.unplaced)
    (h : Leads (some ks) gs hs) (hy : solidLexeme true stop' g' hs = .ok y)
    (hrest : ks.length ≤ y.cut.rest.length) : ∃ x, solidLexeme true stop g gs = .ok x := by
  unfold solidLexeme at hy ⊢
  rw [← byte_eq hg, ← startsNumber_leads (.cons hg h)] at hy
  split
  · rename_i hn
    rw [if_pos hn] at hy
    obtain ⟨d, hd, -⟩ := except_map_eq_ok hy
    obtain ⟨e, he, -⟩ := except_map_eq_ok hd
    obtain ⟨c, hc⟩ := numberTail_of_leads stop h he
    rw [number, hc]
    exact ⟨_, rfl⟩
  · rename_i hn
    rw [if_neg hn] at hy
    split
    · rename_i he
      rw [if_pos he] at hy
      exact encodedLexeme_of_leads stop hg h hy hrest
    · split
      · exact exists_quotedLexeme _ _ _ _ _ _
      · split
        · exact exists_quotedLexeme _ _ _ _ _ _
        · repeat' split
          all_goals exact ⟨_, rfl⟩

/-- A tolerant scan does not fail without the tail if it leaves more than the tail. -/
theorem exists_lexeme_of_leads (stop : Pos) (h : Leads (some ks) (g :: gs) (g' :: hs))
    (hy : lexeme true stop' g' hs = .ok y) (hrest : ks.length ≤ y.cut.rest.length) :
    ∃ x, lexeme true stop g gs = .ok x := by
  unfold lexeme at hy ⊢
  cases hs' : space (g' :: hs) with
  | none =>
      rw [hs'] at hy
      cases hy
  | some s' =>
      rw [hs'] at hy
      simp only at hy
      have hle : ks.length ≤ s'.cut.rest.length := by
        split at hy
        · rename_i ht
          rw [eq_none_of_space hs' ht, Space.none, h.length_eq]
          exact Nat.le_add_left _ _
        · cases hy
          exact hrest
      obtain ⟨s, hs⟩ := space_of_leads h hs' hle
      have hext := space_leads h hs
      rw [hs'] at hext
      rw [hs]
      simp only
      split
      · rename_i ht
        cases hext with
        | same htext _ _ =>
            rw [if_pos (htext ▸ ht)] at hy
            obtain ⟨g₁, hs₁, heq, hg, hl⟩ := h.of_cons (not_blank_of_space hs ht).1
            cases heq
            exact solidLexeme_of_leads stop hg hl hy hrest
        | across _ _ hb _ =>
            obtain ⟨b, hmem, -⟩ := hb
            rw [ht] at hmem
            cases hmem
      · exact ⟨_, rfl⟩

/-- A lexeme that leaves more than the tail is taken without the tail as well. -/
theorem lexeme_of_leads (stop : Pos) {u : Space} (hu : space ks = some u)
    (h : Leads (some ks) (g :: gs) (g' :: hs)) (hy : lexeme true stop' g' hs = .ok y)
    (hrest : ks.length < y.cut.rest.length) :
    ∃ x, lexeme true stop g gs = .ok x ∧ Matches (some ks) x y := by
  obtain ⟨x, hx⟩ := exists_lexeme_of_leads stop h hy (Nat.le_of_lt hrest)
  have hext := lexeme_leads stop' h hx
  rw [hy] at hext
  refine ⟨x, hx, ?_⟩
  cases hext with
  | same hm => exact hm
  | across _ _ _ _ hacross =>
      obtain ⟨z, hz, -, -, -, hr⟩ := hacross u hu
      cases hz
      rw [hr] at hrest
      exact absurd (length_of_space hu) (Nat.not_le_of_lt hrest)

section Breaks

/-- What is left behind the white space in front. -/
def behindSpace (gs : List Glyph) : Option (List Glyph) :=
  (space gs).map fun s => s.cut.rest

theorem map_rest_prepend (o : Option Space) (text : Text) (newline : Bool) (us : List Glyph) :
    (o.map (Space.prepend text newline us)).map (fun s => s.cut.rest) =
      o.map fun s => s.cut.rest := by
  cases o <;> rfl

variable {t : List Glyph}

theorem behindSpace_of_lineBreak (hb : Byte.isLineBreak g.byte = true) :
    behindSpace (g :: t) = behindSpace t := by
  rw [behindSpace, space, if_pos hb, map_rest_prepend, behindSpace]

theorem behindSpace_of_blank (hb : ¬Byte.isLineBreak g.byte = true)
    (hl : Byte.isBlank g.byte = true) : behindSpace (g :: t) = behindSpace t := by
  rw [behindSpace, space, if_neg hb, if_pos hl, map_rest_prepend, behindSpace]

theorem behindSpace_of_found (hb : ¬Byte.isLineBreak g.byte = true)
    (hl : ¬Byte.isBlank g.byte = true) (hc : comment (g :: t) = .found d) :
    behindSpace (g :: t) = behindSpace d.rest := by
  rw [behindSpace, space_of_found hb hl hc, map_rest_prepend, behindSpace]

theorem blockComment_append (h : blockComment gs = some d) (ks : List Glyph) :
    blockComment (gs ++ ks) = some ⟨d.taken, d.rest ++ ks⟩ := by
  fun_induction blockComment gs generalizing d with
  | case1 | case2 => cases h
  | case3 g k gs hb =>
      cases h
      exact if_pos hb
  | case4 g k gs hb ih =>
      obtain ⟨c, hc, rfl⟩ := Option.map_eq_some_iff.1 ‹_›
      rw [List.cons_append, List.cons_append, blockComment, if_neg hb, ← List.cons_append, ih hc]
      rfl

theorem spanning_append (p : UInt8 → Bool) (gs ks : List Glyph) :
    Cut.spanning p (gs ++ ks) = if (Cut.spanning p gs).rest = [] then (Cut.spanning p ks).prepend gs
      else ⟨(Cut.spanning p gs).taken, (Cut.spanning p gs).rest ++ ks⟩ := by
  induction gs with
  | nil => rfl
  | cons g gs ih =>
      rw [List.cons_append, Cut.spanning, Cut.spanning]
      split
      · rw [ih, Cut.rest_prepend]
        split <;> rfl
      · rfl

/-- More glyphs behind a comment are left by it, unless it is a line comment at the end. -/
theorem comment_append (h : comment gs = .found d) :
    (∀ ks, comment (gs ++ ks) = .found ⟨d.taken, d.rest ++ ks⟩) ∨
      ∀ ks, ∃ e, comment (gs ++ ks) = .found e ∧
        e.rest = (Cut.spanning (fun b => !Byte.isLineBreak b) ks).rest := by
  match gs with
  | [] | [_] => cases h
  | g :: k :: gs =>
      simp only [comment] at h
      simp only [List.cons_append, comment]
      split at h
      · rename_i hb
        cases hc : blockComment gs with
        | none =>
            rw [hc] at h
            cases h
        | some c =>
            rw [hc] at h
            cases h
            refine .inl fun ks => ?_
            rw [if_pos hb, blockComment_append hc]
            rfl
      · rename_i hb
        split at h
        · rename_i hl
          cases h
          simp only [if_neg hb, if_pos hl, spanning_append]
          by_cases hr : (Cut.spanning (fun b => !Byte.isLineBreak b) gs).rest = []
          · simp only [if_pos hr]
            exact .inr fun ks => ⟨_, rfl, rfl⟩
          · simp only [if_neg hr]
            exact .inl fun ks => rfl
        · cases h

/-- White space at the end goes on in the white space behind it. A line comment at the end takes
up the rest of the line first. -/
theorem behindSpace_append (h : behindSpace gs = some []) :
    (∀ ks, behindSpace (gs ++ ks) = behindSpace ks) ∨
      ∀ ks, behindSpace (gs ++ ks) =
        behindSpace (Cut.spanning (fun b => !Byte.isLineBreak b) ks).rest := by
  fun_induction space gs with
  | case1 => exact .inl fun ks => rfl
  | case2 g t hb ih =>
      rw [behindSpace_of_lineBreak hb] at h
      simp only [List.cons_append, behindSpace_of_lineBreak hb]
      exact ih h
  | case3 g t hb hl ih =>
      rw [behindSpace_of_blank hb hl] at h
      simp only [List.cons_append, behindSpace_of_blank hb hl]
      exact ih h
  | case4 g t hb hl hc =>
      rw [behindSpace, space_of_absent hb hl hc] at h
      cases h
  | case5 g t hb hl hc =>
      rw [behindSpace, space_of_unterminated hb hl hc] at h
      cases h
  | case6 g t hb hl c hc ih =>
      rw [behindSpace_of_found hb hl hc] at h
      rcases comment_append hc with happend | hline
      · have hstep (ks : List Glyph) : behindSpace (g :: t ++ ks) = behindSpace (c.rest ++ ks) :=
          behindSpace_of_found hb hl (happend ks)
        simp only [hstep]
        exact ih h
      · refine .inr fun ks => ?_
        obtain ⟨e, he, hrest⟩ := hline ks
        exact (behindSpace_of_found hb hl he).trans (congrArg behindSpace hrest)

/-- Glyphs up to a line break, and white space behind it. -/
structure Parts (gs us vs : List Glyph) : Prop where
  whole : us ++ vs = gs
  lineBreak : ∃ g ∈ us.getLast?, Byte.isLineBreak g.byte = true
  behindSpace : behindSpace vs = some []

variable {us vs : List Glyph}

theorem Parts.prepend (h : Parts gs us vs) (ts : List Glyph) : Parts (ts ++ gs) (ts ++ us) vs := by
  obtain ⟨g, hg, hb⟩ := h.lineBreak
  refine ⟨by rw [List.append_assoc, h.whole], ⟨g, ?_, hb⟩, h.behindSpace⟩
  rw [List.getLast?_append, hg]
  rfl

theorem Parts.leads (h : Parts gs us vs) (ks : List Glyph) :
    Leads (some (vs ++ ks)) us (gs ++ ks) := by
  rw [← h.whole, List.append_assoc]
  exact Glyph.leads_append h.lineBreak _

/-- White space that ends a line is white space up to a line break and behind it. -/
theorem exists_parts_of_space {s : Space} (h : space gs = some s) (hr : s.cut.rest = [])
    (hn : s.newline = true) :
    ∃ us vs r, Parts gs us vs ∧ space us = some r ∧ r.cut.rest = [] ∧ r.newline = true := by
  fun_induction space gs generalizing s with
  | case1 | case4 =>
      cases h
      cases hn
  | case2 g t hb ih =>
      obtain ⟨u, hu, rfl⟩ := Option.map_eq_some_iff.1 h
      refine ⟨[g], t, (Space.none []).prepend [g.byte] true [g],
        ⟨rfl, ⟨g, rfl, hb⟩, Option.map_eq_some_iff.2 ⟨u, hu, hr⟩⟩, ?_, rfl, rfl⟩
      rw [space, if_pos hb, space]
      rfl
  | case3 g t hb hl ih =>
      obtain ⟨u, hu, rfl⟩ := Option.map_eq_some_iff.1 h
      obtain ⟨us, vs, r, hp, hr, hrest, hnl⟩ := ih hu hr hn
      refine ⟨g :: us, vs, r.prepend [g.byte] false [g], hp.prepend [g], ?_, hrest, hnl⟩
      rw [space, if_neg hb, if_pos hl, hr]
      rfl
  | case5 => cases h
  | case6 g t hb hl c hc ih =>
      obtain ⟨u, hu, rfl⟩ := Option.map_eq_some_iff.1 h
      obtain ⟨us, vs, r, hp, hr, hrest, hnl⟩ := ih hu hr hn
      obtain ⟨hwhole, hlen⟩ := whole_of_comment hc
      have hparts := hp.prepend c.taken
      rw [← Cut.whole, hwhole] at hparts
      have hlead := hparts.leads []
      rw [List.append_nil, List.append_nil] at hlead
      have hle : vs.length ≤ c.rest.length := by
        rw [← hp.whole, List.length_append]
        exact Nat.le_add_left _ _
      obtain ⟨e, he, hm⟩ := comment_of_leads hlead hc hle
      have hus : e.rest = us := hm.rest_eq (whole_of_comment he).1
      have hg : ∃ t', c.taken ++ us = g :: t' := by
        obtain ⟨g₁, t₁, htaken⟩ :=
          List.exists_cons_of_length_pos (by omega : 0 < c.taken.length)
        rw [Cut.whole, htaken] at hwhole
        cases hwhole
        exact ⟨t₁ ++ us, by rw [htaken]; rfl⟩
      obtain ⟨t', ht'⟩ := hg
      refine ⟨c.taken ++ us, vs, r.prepend [Byte.space] false e.taken, hparts, ?_, hrest, hnl⟩
      rw [ht'] at he ⊢
      rw [space_of_found hb hl he, hus, hr]
      rfl

theorem taken_of_lexeme {tolerant : Bool} {stop : Pos} (h : lexeme tolerant stop g gs = .ok y) :
    ∃ ts, y.cut.taken = g :: ts := by
  obtain ⟨hwhole, hne⟩ := cuts_lexeme h
  obtain ⟨g₁, ts, htaken⟩ := List.exists_cons_of_ne_nil hne
  rw [Cut.whole, htaken] at hwhole
  cases hwhole
  exact ⟨ts, htaken⟩

/-- A lexeme in front of a line break is taken again without the white space behind it. -/
theorem Parts.lexeme (h : Parts y.cut.rest us vs) {stop : Pos}
    (hy : lexeme true stop g gs = .ok y) :
    ∃ ts x, y.cut.taken = g :: ts ∧ lexeme true stop g (ts ++ us) = .ok x ∧
      Matches (some vs) x y ∧ x.cut.rest = us := by
  obtain ⟨ts, htaken⟩ := taken_of_lexeme hy
  have hlead := (h.prepend y.cut.taken).leads []
  rw [List.append_nil, List.append_nil, ← Cut.whole, (cuts_lexeme hy).whole, htaken] at hlead
  obtain ⟨u, hu, -⟩ := Option.map_eq_some_iff.1 h.behindSpace
  have hlt : vs.length < y.cut.rest.length := by
    obtain ⟨b, hb, -⟩ := h.lineBreak
    have hpos := List.length_pos_of_mem (List.mem_of_getLast? hb)
    rw [← h.whole, List.length_append]
    omega
  obtain ⟨x, hx, hm⟩ := lexeme_of_leads stop hu hlead hy hlt
  refine ⟨ts, x, htaken, hx, hm, hm.cut.rest_eq ?_⟩
  rw [(cuts_lexeme hx).whole, htaken]
  rfl

end Breaks
end Lexer
end CPreprocessor

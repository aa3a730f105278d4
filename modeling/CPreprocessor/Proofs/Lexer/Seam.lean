import CPreprocessor.Proofs.Lexer.Failure
import CPreprocessor.Proofs.Lexer.Lookahead
import CPreprocessor.Proofs.Lexer.Recognition

/-!
Tokens across a line end. Every token in front of the line end is scanned the same when more
follows, and so is the white space around it, unless it reaches the end. There it takes up the
white space that follows, and what is scanned next is scanned as it is on its own.
-/

namespace CPreprocessor

open Glyph (Leads byte_eq)

/-- A line break ends a character, whatever follows it. -/
theorem Utf8.decode_before_break {v w : Text} {b : UInt8} {n : Nat} {r : Text}
    (hb : Byte.isLineBreak b = true) (hv : v ≠ []) (h : decode (v ++ b :: w) = some (n, r))
    (w' : Text) : ∃ r', decode (v ++ b :: w') = some (n, r') ∧
      (v ++ b :: w').length - r'.length = (v ++ b :: w).length - r.length := by
  obtain ⟨a, u, heq, -, hu, -, hdec⟩ := decode_eq_some h
  have hsplit : ∃ s, v = a :: u ++ s ∧ r = s ++ b :: w := by
    rcases List.append_eq_append_iff.1 heq with ⟨s, hs, hr⟩ | ⟨s, hs, hr⟩
    · cases s with
      | nil => exact ⟨[], by rw [hs, List.append_nil, List.append_nil], hr.symm⟩
      | cons c s =>
          cases hr
          obtain ⟨x, v, rfl⟩ := List.exists_cons_of_ne_nil hv
          cases hs
          have htail := hu b (by simp)
          rw [(Byte.of_isLineBreak hb).2.2.2.2.2.2.2.2] at htail
          cases htail
    · exact ⟨s, hs, hr⟩
  obtain ⟨s, rfl, rfl⟩ := hsplit
  refine ⟨s ++ b :: w', ?_, ?_⟩
  · rw [List.append_assoc]
    exact hdec _
  · simp only [List.length_append, List.length_cons]
    omega

namespace Lexer

variable {tail : Option (List Glyph)} {gs hs : List Glyph}

/-- What is scanned as white space where more follows: the same run, or the run and the white
space at the beginning of the tail. -/
inductive Space.Extends : Option (List Glyph) → Space → Option Space → Prop where
  | same {tail s s'} :
      s.text = s'.text → s.newline = s'.newline → Cut.Matches tail s.cut s'.cut →
      Extends tail s (some s')
  | across {ks s o} : s.cut.rest = [] → s.newline = true →
      (∃ b ∈ s.text, Byte.isLineBreak b = true) →
      (∀ u, space ks = some u → ∃ s', o = some s' ∧ s'.text = s.text ++ u.text ∧
        s'.newline = true ∧ s'.cut.rest = u.cut.rest) → Extends (some ks) s o

theorem Space.Extends.prepend {s : Space} {o : Option Space} (h : Extends tail s o) (text : Text)
    (newline : Bool) {us vs : List Glyph} (huv : us.map Glyph.unplaced = vs.map Glyph.unplaced) :
    Extends tail (s.prepend text newline us) (o.map (.prepend text newline vs)) := by
  cases h with
  | same ht hn hm =>
      refine .same ?_ ?_ (hm.prepend huv)
      · rw [Space.prepend, Space.prepend, ht]
      · rw [Space.prepend, Space.prepend, hn]
  | across hr hn hb hu =>
      obtain ⟨b, hmem, hb⟩ := hb
      refine .across hr ?_ ⟨b, List.mem_append_right _ hmem, hb⟩ ?_
      · rw [Space.prepend, hn, Bool.or_true]
      · intro u hu'
        obtain ⟨s', rfl, ht, hn', hr'⟩ := hu u hu'
        refine ⟨_, rfl, ?_, ?_, hr'⟩
        · rw [Space.prepend, Space.prepend, ht, List.append_assoc]
        · rw [Space.prepend, hn', Bool.or_true]

theorem space_leads (h : Leads tail gs hs) {s : Space} (hs' : space gs = some s) :
    Space.Extends tail s (space hs) := by
  fun_induction space gs generalizing hs s with
  | case1 =>
      cases hs'
      obtain ⟨rfl, rfl⟩ := h.of_nil
      rw [space]
      exact .same rfl rfl (.none .nil)
  | case2 g t hb ih =>
      obtain ⟨r, hr, rfl⟩ := Option.map_eq_some_iff.1 hs'
      cases h with
      | @seam _ g' ks _ hg =>
          rw [space] at hr
          cases hr
          refine .across rfl rfl ⟨g.byte, List.mem_cons_self, hb⟩ fun u hu =>
            ⟨u.prepend [g'.byte] true [g'], ?_, ?_, rfl, rfl⟩
          · rw [space, if_pos (hg ▸ hb), hu]
            rfl
          · rw [hg]
            rfl
      | @cons _ _ g' _ t' hu h =>
          rw [space, if_pos (byte_eq hu ▸ hb), ← byte_eq hu]
          exact (ih h hr).prepend _ _ (by simp [hu])
  | case3 g t hb hl ih =>
      obtain ⟨r, hr, rfl⟩ := Option.map_eq_some_iff.1 hs'
      obtain ⟨g', hs, rfl, hu, h⟩ := h.of_cons (Bool.eq_false_iff.2 hb)
      rw [byte_eq hu] at hb hl ⊢
      rw [space, if_neg hb, if_pos hl]
      exact (ih h hr).prepend _ _ (by simp [hu])
  | case4 g t hb hl hc =>
      cases hs'
      have hc' := comment_leads_absent h hc
      obtain ⟨g', hs, rfl, hbyte⟩ := h.head
      rw [hbyte] at hb hl
      rw [space_of_absent hb hl hc']
      exact .same rfl rfl (.none h)
  | case5 => cases hs'
  | case6 g t hb hl c hc ih =>
      obtain ⟨r, hr, rfl⟩ := Option.map_eq_some_iff.1 hs'
      obtain ⟨d, hd, hm⟩ := comment_leads h hc
      obtain ⟨g', hs, rfl, hbyte⟩ := h.head
      rw [hbyte] at hb hl
      rw [space_of_found hb hl hd]
      exact (ih hm.rest hr).prepend _ _ hm.taken

/-- White space at the beginning of a text is scanned the same wherever the text stands. -/
theorem space_spliced {t : Text} {p : Pos} {s : Space} (h : space (Glyph.spliced p t).2 = some s)
    (q : Pos) : ∃ u, space (Glyph.spliced q t).2 = some u ∧ s.text = u.text ∧
      Leads none s.cut.rest u.cut.rest := by
  have hext := space_leads (Glyph.leads_spliced p q t).2 h
  generalize space (Glyph.spliced q t).2 = o at hext
  cases hext with
  | same ht _ hm => exact ⟨_, rfl, ht, hm.rest⟩

/-- Two lexemes that are the same up to places. -/
structure Matches (tail : Option (List Glyph)) (x y : Lexeme) : Prop where
  kind : x.kind = y.kind
  text : x.text = y.text
  newline : x.newline = y.newline
  cut : Cut.Matches tail x.cut y.cut

theorem matches_spelledLexeme (kind : Kind) {c d : Cut} (h : Cut.Matches tail c d) :
    Matches tail (spelledLexeme kind c) (spelledLexeme kind d) :=
  ⟨rfl, spelling_eq h.taken, rfl, h⟩

theorem matches_identLexeme (h : Leads tail gs hs) :
    Matches tail (identLexeme gs) (identLexeme hs) :=
  matches_spelledLexeme _ (Cut.matches_spanning (fun _ hb => (Byte.of_isLineBreak hb).1) h)

variable {g g' : Glyph} {x : Lexeme}

theorem quotedLexeme_leads {tolerant : Bool} {start stop : Pos} (start' stop' : Pos) {kind : Kind}
    {us vs : List Glyph} (huv : us.map Glyph.unplaced = vs.map Glyph.unplaced)
    (hg : g.unplaced = g'.unplaced) (hb : Byte.isLineBreak g.byte = false) (h : Leads tail gs hs)
    (hx : quotedLexeme tolerant start stop kind us g gs = .ok x) :
    ∃ y, quotedLexeme tolerant start' stop' kind vs g' hs = .ok y ∧ Matches tail x y := by
  have hm : Closing.Matches tail (literalTail tolerant stop g.byte gs)
      (literalTail tolerant stop' g.byte hs) := literalTail_leads hb h
  have huv' : (us ++ [g]).map Glyph.unplaced = (vs ++ [g']).map Glyph.unplaced := by
    simp [huv, hg]
  unfold quotedLexeme at hx ⊢
  rw [← byte_eq hg]
  generalize literalTail tolerant stop g.byte gs = q at hm hx
  generalize literalTail tolerant stop' g.byte hs = r at hm
  cases hm with
  | closed hm =>
      cases hx
      exact ⟨_, rfl, matches_spelledLexeme _ (hm.prepend huv')⟩
  | unclosed hm =>
      simp only at hx ⊢
      split at hx
      · rename_i ht
        cases hx
        rw [if_pos ht]
        exact ⟨_, rfl, matches_spelledLexeme _ (hm.prepend huv')⟩
      · cases hx
  | broken => cases hx

theorem verbatim_eq {us vs : List Glyph} (h : us.map Glyph.unplaced = vs.map Glyph.unplaced) :
    Glyph.verbatim us = Glyph.verbatim vs := by
  induction us generalizing vs with
  | nil =>
      rw [List.map_eq_nil_iff.1 h.symm]
  | cons u us ih =>
      obtain ⟨v, vs, rfl, hv, hvs⟩ := List.map_eq_cons_iff.1 h.symm
      have hb := byte_eq hv.symm
      have hs := Glyph.splices_eq hv.symm
      cases us with
      | nil =>
          obtain rfl := List.map_eq_nil_iff.1 hvs
          rw [Glyph.verbatim, Glyph.verbatim, hb]
      | cons w us =>
          have hne : vs ≠ [] := by
            rintro rfl
            cases hvs
          rw [Glyph.verbatim_cons u (List.cons_ne_nil w us), Glyph.verbatim_cons v hne,
            ih hvs.symm, Glyph.source, Glyph.source, hb, hs]

theorem encodedLexeme_leads {tolerant : Bool} {stop : Pos} (stop' : Pos)
    (hg : g.unplaced = g'.unplaced) (h : Leads tail gs hs)
    (hx : encodedLexeme tolerant stop g gs = .ok x) :
    ∃ y, encodedLexeme tolerant stop' g' hs = .ok y ∧ Matches tail x y := by
  obtain ⟨hm, hraw⟩ := encoding_leads hg h
  have hident : ∃ y, (Except.ok (identLexeme (g' :: hs)) : Except Error Lexeme) = .ok y ∧
      Matches tail (identLexeme (g :: gs)) y :=
    ⟨_, rfl, matches_identLexeme (.cons hg h)⟩
  unfold encodedLexeme at hx ⊢
  generalize encoding g gs = e at hm hraw hx
  generalize encoding g' hs = f at hm hraw
  obtain ⟨letters, raw⟩ := e
  obtain ⟨letters', raw'⟩ := f
  simp only at hm hraw hx ⊢
  subst hraw
  have hrest := hm.rest
  cases hr : letters.rest with
  | nil =>
      rw [hr] at hx hrest
      cases hx
      rw [hrest.of_nil.2]
      exact hident
  | cons q t =>
      rw [hr] at hx hrest
      obtain ⟨q', t', hr', hbyte⟩ := hrest.head
      rw [hr'] at hrest ⊢
      have hmatch {b : UInt8} (hb : Byte.isLineBreak b = false) (hq : q.byte = b) :
          q.unplaced = q'.unplaced ∧ Leads tail t t' := by
        obtain ⟨q₁, t₁, heq, hu, hl⟩ := hrest.of_cons (by rw [hq, hb])
        cases heq
        exact ⟨hu, hl⟩
      simp only [← hbyte] at hx ⊢
      split at hx
      · rename_i hq
        obtain ⟨hu, hl⟩ := hmatch rfl hq
        rw [if_pos hq]
        cases raw with
        | true =>
            simp only [if_true] at hx ⊢
            obtain ⟨c, hc, rfl⟩ := except_map_eq_ok hx
            obtain ⟨d, hd, hm'⟩ := rawString_leads g'.pos hu hl hc
            rw [hd]
            refine ⟨_, rfl, rfl, ?_, rfl, hm'.prepend hm.taken⟩
            simp only [spelling_eq hm.taken, verbatim_eq hm'.taken]
        | false =>
            exact quotedLexeme_leads g'.pos stop' hm.taken hu (by rw [hq]; rfl) hl hx
      · rename_i hq
        rw [if_neg hq]
        split at hx
        · rename_i ha
          obtain ⟨hu, hl⟩ := hmatch rfl ha.1
          rw [if_pos ha]
          exact quotedLexeme_leads g'.pos stop' hm.taken hu (by rw [ha.1]; rfl) hl hx
        · rename_i ha
          cases hx
          rw [if_neg ha]
          exact hident

theorem matches_punctLexeme (hg : g.unplaced = g'.unplaced) (h : Leads tail gs hs) :
    Matches tail (punctLexeme g gs) (punctLexeme g' hs) := by
  have hboth : ∀ ps : List Text, (∀ p ∈ ps, p ∈ Vocabulary.punctuators) →
      Cut.Both tail (ps.findSome? fun p => Cut.spelled p (g :: gs))
        (ps.findSome? fun p => Cut.spelled p (g' :: hs)) := by
    intro ps hps
    induction ps with
    | nil => trivial
    | cons p ps ih =>
        have hp := Cut.both_spelled (noBreak_of_mem_punctuators (hps p List.mem_cons_self)).2
          (Leads.cons hg h)
        rw [List.findSome?_cons, List.findSome?_cons]
        generalize Cut.spelled p (g :: gs) = o at hp
        generalize Cut.spelled p (g' :: hs) = o' at hp
        cases o with
        | none =>
            cases o' with
            | none => exact ih fun q hq => hps q (List.mem_cons_of_mem p hq)
            | some d => cases hp
        | some c =>
            cases o' with
            | none => cases hp
            | some d => exact hp
  have hfound := hboth Vocabulary.punctuators fun p hp => hp
  unfold punctLexeme
  generalize (Vocabulary.punctuators.findSome? fun p => Cut.spelled p (g :: gs)) = o at hfound
  generalize (Vocabulary.punctuators.findSome? fun p => Cut.spelled p (g' :: hs)) = o' at hfound
  cases o with
  | none =>
      cases o' with
      | none => exact matches_spelledLexeme _ ((Cut.Matches.none h).cons hg)
      | some d => cases hfound
  | some c =>
      cases o' with
      | none => cases hfound
      | some d => exact matches_spelledLexeme _ hfound

theorem matches_take (h : Leads tail gs hs) (k : Nat)
    (hk : ∀ b ∈ (Glyph.spelling gs).take k, Byte.isLineBreak b = false) :
    Cut.Matches tail ⟨gs.take k, gs.drop k⟩ ⟨hs.take k, hs.drop k⟩ := by
  induction k generalizing gs hs with
  | zero => exact .none h
  | succ k ih =>
      cases gs with
      | nil =>
          obtain ⟨rfl, rfl⟩ := h.of_nil
          exact .none .nil
      | cons g gs =>
          obtain ⟨g', hs, rfl, hu, h⟩ := h.of_cons (hk g.byte List.mem_cons_self)
          exact (ih h fun b hb => hk b (List.mem_cons_of_mem _ hb)).cons hu

/-- The bytes of a character that is cut off by a line break are the same. -/
theorem unbroken_leads (h : Leads tail gs hs) (k : Nat) :
    unbroken (gs.take k) = unbroken (hs.take k) ∨
      ∃ v b w, Byte.isLineBreak b = true ∧ unbroken (gs.take k) = v ++ [b] ∧
        unbroken (hs.take k) = v ++ b :: w := by
  induction h generalizing k with
  | nil => exact .inl rfl
  | @seam g g' hs hb hg =>
      cases k with
      | zero => exact .inl rfl
      | succ k =>
          refine .inr
            ⟨[], g.byte, if g'.splices = [] then unbroken (hs.take k) else [], hb, ?_, ?_⟩
          · rw [List.take_succ_cons, List.take_nil, unbroken, unbroken, ite_self]
            rfl
          · rw [List.take_succ_cons, unbroken, hg]
            split <;> rfl
  | @cons _ g g' _ _ hu _ ih =>
      cases k with
      | zero => exact .inl rfl
      | succ k =>
          rw [List.take_succ_cons, List.take_succ_cons, unbroken, unbroken, ← byte_eq hu,
            ← Glyph.splices_eq hu]
          split
          · rcases ih k with heq | ⟨v, b, w, hb, h₁, h₂⟩
            · exact .inl (congrArg _ heq)
            · exact .inr ⟨g.byte :: v, b, w, hb, congrArg _ h₁, congrArg _ h₂⟩
          · exact .inl rfl

theorem noBreak_of_wide {n : Nat} {r : Text} (hg : 0x80 ≤ g.byte)
    (h : Utf8.decode (unbroken ((g :: gs).take 4)) = some (n, r)) :
    ∀ b ∈ (Glyph.spelling (g :: gs)).take ((unbroken ((g :: gs).take 4)).length - r.length),
      Byte.isLineBreak b = false := by
  obtain ⟨a, u, hu, -, htail, -⟩ := Utf8.decode_eq_some h
  have hp : a :: u <+: Glyph.spelling (g :: gs) := by
    have h₁ : a :: u <+: unbroken ((g :: gs).take 4) := ⟨r, hu.symm⟩
    have h₂ : Glyph.spelling ((g :: gs).take 4) <+: Glyph.spelling (g :: gs) :=
      (List.take_prefix 4 (g :: gs)).map _
    exact (h₁.trans (unbroken_isPrefix _)).trans h₂
  have hw : (unbroken ((g :: gs).take 4)).length - r.length = (a :: u).length := by
    rw [hu, List.length_append]
    omega
  rw [hw, ← List.prefix_iff_eq_take.1 hp]
  intro b hb
  rcases List.mem_cons.1 hb with rfl | hb
  · exact (Byte.of_le ((List.cons_prefix_cons.1 hp).1 ▸ hg)).1
  · exact (Byte.of_le (UInt8.not_lt.1 (Utf8.not_lt_of_isTail (htail b hb)))).1

theorem matches_wideLexeme (hw : 0x80 ≤ g.byte) (hg : g.unplaced = g'.unplaced)
    (h : Leads tail gs hs) : Matches tail (wideLexeme g gs) (wideLexeme g' hs) := by
  have hl : Leads tail (g :: gs) (g' :: hs) := .cons hg h
  have htake := matches_take hl
  have hnone :
      Matches tail (spelledLexeme .invalid ⟨[g], gs⟩) (spelledLexeme .invalid ⟨[g'], hs⟩) :=
    matches_spelledLexeme _ ((Cut.Matches.none h).cons hg)
  have hbreak := fun n r => @noBreak_of_wide gs g n r hw
  unfold wideLexeme
  rcases unbroken_leads hl 4 with heq | ⟨v, b, w, hb, h₁, h₂⟩
  · simp only [← heq]
    cases hd : Utf8.decode (unbroken ((g :: gs).take 4)) with
    | none => exact hnone
    | some x => exact matches_spelledLexeme _ (htake _ (hbreak x.1 x.2 hd))
  · have hv : v ≠ [] := by
      rintro rfl
      have hhead : (unbroken ((g :: gs).take 4)).head? = some g.byte := by
        rw [List.take_succ_cons, unbroken]
        split <;> rfl
      rw [h₁] at hhead
      cases hhead
      rw [(Byte.of_le hw).1] at hb
      cases hb
    rw [h₁] at hbreak
    simp only [h₁, h₂]
    cases hd : Utf8.decode (v ++ [b]) with
    | none =>
        cases hd' : Utf8.decode (v ++ b :: w) with
        | none => exact hnone
        | some x =>
            obtain ⟨r, hr, -⟩ := Utf8.decode_before_break hb hv hd' []
            rw [hd] at hr
            cases hr
    | some x =>
        obtain ⟨r, hr, hlen⟩ := Utf8.decode_before_break hb hv hd w
        simp only [hr, hlen]
        exact matches_spelledLexeme _ (htake _ (hbreak x.1 x.2 hd))

theorem solidLexeme_leads {tolerant : Bool} {stop : Pos} (stop' : Pos)
    (hg : g.unplaced = g'.unplaced) (h : Leads tail gs hs)
    (hx : solidLexeme tolerant stop g gs = .ok x) :
    ∃ y, solidLexeme tolerant stop' g' hs = .ok y ∧ Matches tail x y := by
  have hl : Leads tail (g :: gs) (g' :: hs) := .cons hg h
  unfold solidLexeme at hx ⊢
  rw [← byte_eq hg, ← startsNumber_leads hl]
  split at hx
  · rename_i hn
    rw [if_pos hn]
    obtain ⟨c, hc, rfl⟩ := except_map_eq_ok hx
    obtain ⟨c', hc', rfl⟩ := except_map_eq_ok hc
    obtain ⟨d, hd, hm⟩ := numberTail_leads stop' h hc'
    refine ⟨_, ?_, matches_spelledLexeme _ (hm.cons hg)⟩
    rw [number, hd]
    rfl
  · rename_i hn
    rw [if_neg hn]
    split at hx
    · rename_i he
      rw [if_pos he]
      exact encodedLexeme_leads stop' hg h hx
    · rename_i he
      rw [if_neg he]
      split at hx
      · rename_i hq
        rw [if_pos hq]
        exact quotedLexeme_leads g'.pos stop' rfl hg (by rw [hq]; rfl) h hx
      · rename_i hq
        rw [if_neg hq]
        split at hx
        · rename_i ha
          rw [if_pos ha]
          exact quotedLexeme_leads g'.pos stop' rfl hg (by rw [ha]; rfl) h hx
        · rename_i ha
          rw [if_neg ha]
          split at hx
          · rename_i hi
            cases hx
            rw [if_pos hi]
            exact ⟨_, rfl, matches_identLexeme hl⟩
          · rename_i hi
            rw [if_neg hi]
            split at hx
            · rename_i hw
              cases hx
              rw [if_pos hw]
              exact ⟨_, rfl, matches_wideLexeme hw hg h⟩
            · rename_i hw
              cases hx
              rw [if_neg hw]
              exact ⟨_, rfl, matches_punctLexeme hg h⟩

/-- A lexeme is scanned again, or it is the white space at the end and goes on in the tail. -/
inductive Extends : Option (List Glyph) → Lexeme → Except Error Lexeme → Prop where
  | same {tail x y} : Matches tail x y → Extends tail x (.ok y)
  | across {ks x r} : x.kind = .whitespace → x.newline = true → x.cut.rest = [] →
      (∃ b ∈ x.text, Byte.isLineBreak b = true) →
      (∀ u, space ks = some u → ∃ y, r = .ok y ∧ y.kind = .whitespace ∧
        y.newline = true ∧ y.text = x.text ++ u.text ∧ y.cut.rest = u.cut.rest) →
      Extends (some ks) x r

theorem lexeme_leads {tolerant : Bool} {stop : Pos} (stop' : Pos)
    (h : Leads tail (g :: gs) (g' :: hs)) (hx : lexeme tolerant stop g gs = .ok x) :
    Extends tail x (lexeme tolerant stop' g' hs) := by
  unfold lexeme at hx
  cases hs' : space (g :: gs) with
  | none =>
      rw [hs'] at hx
      cases hx
  | some s =>
      rw [hs'] at hx
      simp only at hx
      have hext := space_leads h hs'
      split at hx
      · rename_i ht
        obtain ⟨g₁, hs₁, heq, hu, hl⟩ := h.of_cons (not_blank_of_space hs' ht).1
        cases heq
        obtain ⟨y, hy, hm⟩ := solidLexeme_leads stop' hu hl hx
        have hlex : lexeme tolerant stop' g' hs = .ok y := by
          unfold lexeme
          obtain rfl := eq_none_of_space hs' ht
          generalize space (g' :: hs) = o at hext
          cases hext with
          | same htext _ _ =>
              simp only
              rw [if_pos (htext ▸ ht), hy]
          | across _ hnl _ _ => cases hnl
        rw [hlex]
        exact .same hm
      · rename_i ht
        cases hx
        unfold lexeme
        generalize space (g' :: hs) = o at hext
        cases hext with
        | @same _ _ s' htext hnl hm =>
            simp only
            rw [if_neg (htext ▸ ht)]
            exact .same ⟨rfl, htext, hnl, hm⟩
        | across hr hnl hb hu =>
            refine .across rfl hnl hr hb fun u hu' => ?_
            obtain ⟨s', rfl, htext, hnl', hr'⟩ := hu u hu'
            have hne : s'.text ≠ [] := by
              rw [htext]
              exact fun hnil => ht (List.append_eq_nil_iff.1 hnil).1
            simp only
            rw [if_neg hne]
            exact ⟨_, rfl, rfl, hnl', htext, hr'⟩

end Lexer

/-- The second token is the white space of the first, which ends a line, with more white space
behind it. -/
structure Token.Continues (lead : Text) (t t' : Token) : Prop where
  isLineEnd : t.isLineEnd = true
  isLineEnd' : t'.isLineEnd = true
  lineBreak : ∃ b ∈ t.text, Byte.isLineBreak b = true
  text : t'.text = t.text ++ lead

namespace Lexer

variable {tail : Option (List Glyph)}

/-- Two lexers in the same mode, the second with the glyphs of the first and perhaps more. -/
structure Follows (tail : Option (List Glyph)) (l l' : Lexer) : Prop where
  rest : Leads tail l.rest l'.rest
  tolerant : l.tolerant = l'.tolerant

theorem place_unplaced {x y : Lexeme} (h : Matches tail x y) (p q : Pos) :
    (place p x).unplaced = (place q y).unplaced := by
  have hlen (us : List Glyph) : Glyph.totalLength (us.map Glyph.unplaced) =
      Glyph.totalLength us := by
    induction us with
    | nil => rfl
    | cons u us ih =>
        rw [List.map_cons, Glyph.totalLength, ih]
        rfl
  simp only [place, Token.unplaced, h.kind, h.text, h.newline, ← hlen x.cut.taken,
    h.cut.taken, hlen]

variable {l l₁ l' : Lexer} {t : Token}

/-- A token is scanned by both lexers, or the first one has come to its end. -/
theorem follow_pull (h : Follows tail l l') (hp : l.pull = .token t l₁) :
    (∃ t' l₁', l'.pull = .token t' l₁' ∧ t.unplaced = t'.unplaced ∧
      Follows tail l₁ l₁') ∨
      ∃ ks, tail = some ks ∧ l₁.rest = [] ∧ ∀ u, space ks = some u →
        ∃ t' l₁', l'.pull = .token t' l₁' ∧ t.Continues u.text t' ∧
          l₁'.rest = u.cut.rest ∧ l₁'.tolerant = l.tolerant := by
  unfold pull at hp
  split at hp
  · cases hp
  · rename_i g gs hr
    have hl := h.rest
    rw [hr] at hl
    obtain ⟨g', hs, hr', -⟩ := hl.head
    rw [hr'] at hl
    split at hp
    · rename_i x hx
      cases hp
      have hext := lexeme_leads l'.stop hl hx
      rw [h.tolerant] at hext
      simp only [pull, hr']
      generalize lexeme l'.tolerant l'.stop g' hs = r at hext
      have hline {y : Lexeme} (hk : y.kind = .whitespace) (hn : y.newline = true) (p : Pos) :
          (place p y).isLineEnd = true := by
        simp [Token.isLineEnd, Token.isSpace, place, hk, hn]
      cases hext with
      | same hm =>
          exact .inl ⟨_, _, rfl, place_unplaced hm g.pos g'.pos, hm.cut.rest, h.tolerant⟩
      | @across ks _ _ hk hnl hrest hb hu =>
          refine .inr ⟨ks, rfl, hrest, fun u hu' => ?_⟩
          obtain ⟨y, rfl, hk', hnl', htext, hrest'⟩ := hu u hu'
          exact ⟨_, _, rfl, ⟨hline hk hnl _, hline hk' hnl' _, hb, htext⟩, hrest',
            h.tolerant.symm⟩
    · cases hp

theorem tolerant_of_pull (h : l.pull = .token t l₁) : l₁.tolerant = l.tolerant := by
  unfold pull at h
  split at h
  · cases h
  · split at h
    · cases h
      rfl
    · cases h

theorem eq_of_stop {e : End} (h : l.pull = .stop e l₁) : l₁ = l := by
  unfold pull at h
  split at h
  · cases h
    rfl
  · split at h
    · cases h
    · cases h
      rfl

/-- Where the first lexer stops the second one stops for the same reason, or more follows and
the first one has failed. -/
theorem follow_stop (h : Follows tail l l') {e : End} (hp : l.pull = .stop e l₁) :
    l₁ = l ∧ ((tail = none ∧ ∃ e', l'.pull = .stop e' l' ∧ e.Akin e') ∨
      (tail ≠ none ∧ e ≠ .eof)) := by
  cases e with
  | eof =>
      unfold pull at hp
      split at hp
      · rename_i hr
        cases hp
        have hl := h.rest
        rw [hr] at hl
        obtain ⟨rfl, hr'⟩ := hl.of_nil
        refine ⟨rfl, .inl ⟨rfl, .eof, ?_, .refl _⟩⟩
        simp only [pull, hr']
      · split at hp <;> cases hp
  | fault e =>
      obtain ⟨hk, rfl⟩ := kind_of_pull hp
      refine ⟨rfl, ?_⟩
      cases tail with
      | some ks => exact .inr ⟨by simp, by simp⟩
      | none =>
          -- The second lexer is followed by the first, which would go on if the second did.
          have hsymm : Follows none l' l₁ := ⟨h.rest.symm, h.tolerant.symm⟩
          refine .inl ⟨rfl, ?_⟩
          cases hp' : l'.pull with
          | token t l₂ =>
              rcases follow_pull hsymm hp' with ⟨u, l₃, hp₃, -⟩ | ⟨ks, hks, -⟩
              · rw [hp] at hp₃
                cases hp₃
              · cases hks
          | stop e' l₂ =>
              cases e' with
              | eof =>
                  have hnil : l'.rest = [] := by
                    unfold pull at hp'
                    split at hp'
                    · assumption
                    · split at hp' <;> cases hp'
                  have hl := hsymm.rest
                  rw [hnil] at hl
                  simp only [pull, hl.of_nil.2] at hp
                  cases hp
              | fault e' =>
                  obtain ⟨hk', rfl⟩ := kind_of_pull hp'
                  exact ⟨_, rfl, .fault (hk.trans hk'.symm)⟩

end Lexer
end CPreprocessor

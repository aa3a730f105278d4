import CPreprocessor.Proofs.Lexer.Tiling
import CPreprocessor.Proofs.Lexer.Tolerance

/-!
Tolerant scans. The tokens of a strict scan come first in the tolerant scan of the same text, and
they are all of it if the strict scan comes to the end. A tolerant scan stops short of the end only
in front of a comment that is not closed, of a raw string that is not complete, and of a number
with a separator behind it that separates nothing.
-/

namespace CPreprocessor

theorem eq_error_of_map {ε α β : Type} {f : α → β} {x : Except ε α} {e : ε}
    (h : x.map f = .error e) : x = .error e := by
  cases x with
  | ok a => cases h
  | error e' =>
      cases h
      rfl

namespace Spelling

/-- White space as it is written, with comments that are closed. -/
inductive Blank : Text → Prop where
  | nil : Blank []
  | byte {b : UInt8} {t : Text} : Byte.isLineBreak b = true ∨ Byte.isBlank b = true →
      Blank t → Blank (b :: t)
  | block {c t : Text} : ¬ascii "*/" <:+: c ++ ascii "*" → Blank t →
      Blank (ascii "/*" ++ c ++ ascii "*/" ++ t)
  | line {c t : Text} {b : UInt8} : (∀ x ∈ c, Byte.isLineBreak x = false) →
      Byte.isLineBreak b = true → Blank (b :: t) → Blank (ascii "//" ++ c ++ b :: t)

/-- A text that begins with what is behind the opening quote of a raw string: a delimiter and a
parenthesis, and somewhere the closing parenthesis with the delimiter and a quote. -/
def RawFirst (t : Text) : Prop :=
  ∃ d inner rest,
    t = d ++ '('.toUInt8 :: (inner ++ (')'.toUInt8 :: d ++ [Byte.quote]) ++ rest) ∧
    d.length ≤ Lexer.maxDelimiter ∧
      ∀ b ∈ d, Lexer.isBadDelimiter b = false ∧ b ≠ '('.toUInt8

/-- The faults of raw strings, which are not closed or have a malformed delimiter. -/
inductive RawFault : Fault → Prop where
  | unterminated : RawFault .unterminatedRawString
  | byte (b : UInt8) : RawFault (.rawDelimiterByte b)
  | tooLong : RawFault .rawDelimiterTooLong

/-- What a tolerant scan does not get over at the beginning of a source, and the fault it is
reported as. -/
inductive Obstacle : Text → Fault → Prop where
  | comment {src lead rest : Text} :
      Text.unsplice src = lead ++ ascii "/*" ++ rest → Blank lead →
      ¬ascii "*/" <:+: rest → Obstacle src .unterminatedComment
  | rawString {letters rest : Text} {fault : Fault} : Text.unsplice letters ∈ rawLetters →
      ¬RawFirst rest → RawFault fault → Obstacle (letters ++ Byte.quote :: rest) fault
  | separator {src number rest : Text} :
      Text.unsplice src = number ++ Byte.apostrophe :: rest → IsNumber number →
      (∀ b ∈ rest.head?, Byte.isIdent b = false) → Obstacle src .separatorWithoutDigit

end Spelling

namespace Lexer

open Glyph Spelling
open Token (Tiles)
open Text (unsplice joinsLength)

variable {stop : Pos}

section Extension

/-- What a strict scan gives comes first in the tolerant one. -/
theorem content_tolerant (gs : List Glyph) :
    (Source.content (⟨gs, stop, false⟩ : Lexer)).1 <+:
        (Source.content (⟨gs, stop, true⟩ : Lexer)).1 ∧
      ((Source.content (⟨gs, stop, false⟩ : Lexer)).2 = .eof →
        Source.content (⟨gs, stop, true⟩ : Lexer) =
          Source.content (⟨gs, stop, false⟩ : Lexer)) := by
  induction gs using lexeme_induction stop false with
  | nil =>
      rw [content_nil, content_nil]
      exact ⟨List.prefix_refl _, fun _ => rfl⟩
  | error g gs e h =>
      rw [content_error h]
      exact ⟨List.nil_prefix, fun he => by cases he⟩
  | token g gs x h ih =>
      rw [content_cons h, content_cons (lexeme_tolerant h true)]
      exact ⟨(List.prefix_cons_inj _).2 ih.1, fun he => by rw [ih.2 he]⟩

/-- The tokens of a strict scan are the first ones of the tolerant scan, and all of it if the
strict scan comes to the end of the source. -/
theorem scan_strict_isPrefix (src : Text) :
    (scan false src).1 <+: (scan true src).1 ∧
      ((scan false src).2 = .eof → scan true src = scan false src) :=
  content_tolerant (ofText src).rest

end Extension

section Comments

theorem not_infix_of_blockComment {gs : List Glyph} (h : blockComment gs = none) :
    ¬ascii "*/" <:+: spelling gs := by
  have hlength {t : Text} (ht : t.length < 2) : ¬ascii "*/" <:+: t := fun hi => by
    have := hi.length_le
    simp only [ascii] at this
    simp at this
    omega
  fun_induction blockComment gs with
  | case1 => exact hlength (by simp [spelling])
  | case2 g => exact hlength (by simp [spelling])
  | case3 g g' gs hg => cases h
  | case4 g g' gs hg ih =>
      have hi := ih (Option.map_eq_none_iff.1 h)
      rw [spelling_cons, List.infix_cons_iff, not_or]
      refine ⟨fun hp => hg ?_, hi⟩
      rw [spelling_cons] at hp
      obtain ⟨h₁, hp⟩ := List.cons_prefix_cons.1 hp
      exact ⟨h₁.symm, (List.cons_prefix_cons.1 hp).1.symm⟩

/-- A block comment is taken through the first closing of a comment. -/
theorem spelling_of_blockComment {gs : List Glyph} {c : Cut} (h : blockComment gs = some c) :
    ∃ t, spelling c.taken = t ++ ascii "*/" ∧ ¬ascii "*/" <:+: t ++ ascii "*" := by
  fun_induction blockComment gs generalizing c with
  | case1 | case2 => cases h
  | case3 g g' gs hg =>
      cases h
      refine ⟨[], ?_, by decide⟩
      simp only [spelling_cons, hg.1, hg.2]
      rfl
  | case4 g g' gs hg ih =>
      obtain ⟨d, hd, rfl⟩ := Option.map_eq_some_iff.1 h
      obtain ⟨t, ht, hi⟩ := ih hd
      have hw := congrArg spelling (whole_of_blockComment hd)
      rw [Cut.whole, spelling_append, ht, spelling_cons] at hw
      refine ⟨g.byte :: t, ?_, ?_⟩
      · rw [Cut.taken_prepend, List.singleton_append, spelling_cons, ht]
        rfl
      · rw [List.cons_append, List.infix_cons_iff, not_or]
        refine ⟨fun hp => ?_, hi⟩
        obtain ⟨h₁, hp⟩ := List.cons_prefix_cons.1 hp
        cases t with
        | nil => cases (List.cons_prefix_cons.1 hp).1
        | cons b t =>
            have hb : b = g'.byte := (List.cons.inj hw).1
            exact hg ⟨h₁.symm, hb ▸ (List.cons_prefix_cons.1 hp).1.symm⟩

theorem not_infix_of_unterminated {gs : List Glyph} (h : comment gs = .unterminated) :
    ∃ rest, spelling gs = ascii "/*" ++ rest ∧ ¬ascii "*/" <:+: rest := by
  unfold comment at h
  split at h
  · rename_i g g' gs
    split at h
    · rename_i hg
      split at h
      · cases h
      · rename_i hn
        refine ⟨spelling gs, ?_, not_infix_of_blockComment hn⟩
        rw [spelling_cons, spelling_cons, hg.1, hg.2]
        rfl
    · split at h <;> cases h
  · cases h

/-- A comment in front of white space is white space. -/
theorem blank_of_comment {gs : List Glyph} {c : Cut} (h : comment gs = .found c) {t r : Text}
    (hr : spelling c.rest = t ++ ascii "/*" ++ r) (ht : Blank t) :
    Blank (spelling c.taken ++ t) := by
  unfold comment at h
  split at h
  · rename_i g g' gs
    split at h
    · rename_i hg
      split at h
      · rename_i d hd
        cases h
        obtain ⟨u, hu, hi⟩ := spelling_of_blockComment hd
        rw [Cut.taken_prepend, spelling_append, hu, spelling_cons, spelling_cons, hg.1, hg.2,
          ← List.append_assoc]
        exact .block hi ht
      · cases h
    · split at h
      · rename_i hg
        cases h
        simp only [Cut.rest_prepend] at hr
        cases hd : (Cut.spanning (fun b => !Byte.isLineBreak b) gs).rest with
        | nil =>
            rw [hd] at hr
            simp [spelling, ascii] at hr
        | cons z rest =>
            have hz : (!Byte.isLineBreak z.byte) = false := head?_rest_spanning (by rw [hd]; rfl)
            rw [Bool.not_eq_false'] at hz
            rw [hd, spelling_cons, List.append_assoc] at hr
            obtain ⟨b, u, rfl⟩ : ∃ b u, t = b :: u := by
              cases t with
              | nil =>
                  rw [(List.cons.inj hr).1] at hz
                  cases hz
              | cons b u => exact ⟨b, u, rfl⟩
            have hb : z.byte = b := (List.cons.inj hr).1
            rw [Cut.taken_prepend, spelling_append, spelling_cons, spelling_cons, hg.1, hg.2]
            refine .line (fun x hx => ?_) (hb ▸ hz) ht
            simpa using mem_spanning hx
      · cases h
  · cases h

/-- What makes a run of white space fail is a comment that is not closed. -/
theorem of_space_eq_none {gs : List Glyph} (h : space gs = none) :
    ∃ lead rest, spelling gs = lead ++ ascii "/*" ++ rest ∧ Blank lead ∧
      ¬ascii "*/" <:+: rest := by
  fun_induction space gs with
  | case1 | case4 => cases h
  | case2 g gs hg ih =>
      obtain ⟨lead, rest, hs, hb, hr⟩ := ih (Option.map_eq_none_iff.1 h)
      exact ⟨g.byte :: lead, rest, by rw [spelling_cons, hs]; rfl, .byte (.inl hg) hb, hr⟩
  | case3 g gs _ hg ih =>
      obtain ⟨lead, rest, hs, hb, hr⟩ := ih (Option.map_eq_none_iff.1 h)
      exact ⟨g.byte :: lead, rest, by rw [spelling_cons, hs]; rfl, .byte (.inr hg) hb, hr⟩
  | case5 g gs _ _ hc =>
      obtain ⟨rest, hs, hr⟩ := not_infix_of_unterminated hc
      exact ⟨[], rest, hs, .nil, hr⟩
  | case6 g gs _ _ c hc ih =>
      obtain ⟨lead, rest, hs, hb, hr⟩ := ih (Option.map_eq_none_iff.1 h)
      refine ⟨spelling c.taken ++ lead, rest, ?_, blank_of_comment hc hs hb, hr⟩
      rw [← (whole_of_comment hc).1, Cut.whole, spelling_append, hs]
      simp only [List.append_assoc]

end Comments

section Numbers

theorem of_numberTail_error {gs : List Glyph} {e : Error} (h : numberTail stop gs = .error e) :
    e.fault = .separatorWithoutDigit ∧
      ∃ t rest, spelling gs = t ++ Byte.apostrophe :: rest ∧ NumberTail t ∧
        ∀ b ∈ rest.head?, Byte.isIdent b = false := by
  fun_induction numberTail stop gs with
  | case1 | case2 | case4 | case9 => cases h
  | case3 g _ hg =>
      cases h
      refine ⟨rfl, [], [], by rw [spelling_cons, hg]; rfl, .nil, ?_⟩
      intro b hb
      cases hb
  | case5 g g' gs hg ih =>
      obtain ⟨hf, t, rest, hs, ht, hr⟩ := ih (eq_error_of_map h)
      rw [Bool.and_eq_true] at hg
      refine ⟨hf, g.byte :: g'.byte :: t, rest, ?_, .exponent hg.1 hg.2 ht, hr⟩
      rw [spelling_cons, spelling_cons, hs]
      rfl
  | case6 g g' gs _ hg ih =>
      obtain ⟨hf, t, rest, hs, ht, hr⟩ := ih (eq_error_of_map h)
      refine ⟨hf, g.byte :: t, rest, ?_, .plain hg ht, hr⟩
      rw [spelling_cons, hs]
      rfl
  | case7 g g' gs _ _ hg hg' ih =>
      obtain ⟨hf, t, rest, hs, ht, hr⟩ := ih (eq_error_of_map h)
      refine ⟨hf, g.byte :: g'.byte :: t, rest, ?_, hg ▸ .separated hg' ht, hr⟩
      rw [spelling_cons, spelling_cons, hs]
      rfl
  | case8 g g' gs _ _ hg hg' =>
      cases h
      refine ⟨rfl, [], spelling (g' :: gs), by rw [spelling_cons, hg]; rfl, .nil, ?_⟩
      intro b hb
      cases hb
      exact Bool.eq_false_iff.2 hg'

theorem numberFirst_of_append {b : UInt8} {t rest : Text}
    (h : numberFirst (b :: (t ++ Byte.apostrophe :: rest)) = true) :
    numberFirst (b :: t) = true := by
  cases t with
  | cons c t => exact h
  | nil =>
      have ha : Byte.isDigit Byte.apostrophe = false := by decide
      simpa [numberFirst, ha] using h

end Numbers

section RawStrings

/-- A byte of a line join. -/
def isJoinByte (b : UInt8) : Bool :=
  b == Byte.backslash || Byte.isLineBreak b

theorem isJoinByte_eq_false {b : UInt8} : isBadDelimiter b = false → isJoinByte b = false :=
  Byte.forall_of_lt (p := fun b => isBadDelimiter b = false → isJoinByte b = false)
    (by decide +kernel) b

/-- The bytes behind the glyphs are those of line joins. -/
def JoinsOnly (gs : List Glyph) : Prop :=
  ∀ g ∈ gs, ∀ b ∈ g.splices, isJoinByte b = true

theorem joinsOnly_spliced (p : Pos) (t : Text) :
    (∀ b ∈ (spliced p t).1, isJoinByte b = true) ∧ JoinsOnly (spliced p t).2 := by
  induction p, t using spliced_induction with
  | nil p => exact ⟨by simp [spliced], by simp [spliced, JoinsOnly]⟩
  | crlf p t ih =>
      rw [spliced_crlf]
      refine ⟨?_, ih.2⟩
      simp only [List.forall_mem_cons]
      exact ⟨by decide, by decide, by decide, ih.1⟩
  | join p b t hb ih =>
      rw [spliced_join p hb]
      have hjoin : isJoinByte b = true := by
        simp only [Pos.endsLine, Bool.or_eq_true, beq_iff_eq, Bool.and_eq_true] at hb
        obtain rfl | ⟨rfl, -⟩ := hb <;> decide
      exact ⟨List.forall_mem_cons.2 ⟨by decide, List.forall_mem_cons.2 ⟨hjoin, ih.1⟩⟩,
        ih.2⟩
  | byte p b t hb ih =>
      rw [spliced_cons p hb]
      exact ⟨by simp, List.forall_mem_cons.2 ⟨ih.1, ih.2⟩⟩

theorem JoinsOnly.of_read {gs : List Glyph} (h : Read gs) : JoinsOnly gs := by
  obtain ⟨p, t, rfl⟩ := h
  exact (joinsOnly_spliced p t).2

/-- There is no join in front of a byte that is not of a join. -/
theorem eq_nil_of_joins {joins t u : Text} {b : UInt8} (hj : ∀ c ∈ joins, isJoinByte c = true)
    (hb : isJoinByte b = false) (h : joins ++ t = b :: u) : joins = [] := by
  cases joins with
  | nil => rfl
  | cons c joins =>
      rw [← (List.cons.inj h).1, hj c List.mem_cons_self] at hb
      cases hb

theorem contiguous_of_sources {t : Text} {gs : List Glyph} (hj : JoinsOnly gs)
    (ht : ∀ b ∈ t, isJoinByte b = false) {rest : Text} (h : gs.flatMap source = t ++ rest) :
    ∃ c, contiguous t gs = some c := by
  induction t generalizing gs with
  | nil => exact ⟨⟨[], gs⟩, by cases gs <;> rfl⟩
  | cons b t ih =>
      have ht' := (List.forall_mem_cons.1 ht).2
      cases gs with
      | nil => cases h
      | cons g gs =>
          obtain ⟨hg, hj⟩ := List.forall_mem_cons.1 hj
          rw [List.flatMap_cons, source, List.cons_append, List.cons_append] at h
          obtain ⟨rfl, htail⟩ := List.cons.inj h
          cases t with
          | nil => exact ⟨⟨[g], gs⟩, by simp [contiguous]⟩
          | cons c t =>
              have hs : g.splices = [] := eq_nil_of_joins hg (ht' c List.mem_cons_self) htail
              rw [hs, List.nil_append] at htail
              obtain ⟨d, hd⟩ := ih hj ht' htail
              refine ⟨d.prepend [g], ?_⟩
              simp [contiguous, hs, hd]

/-- Joins in front of a text that holds a closing one are in front of that. -/
theorem exists_append_of_joins {closer : Text} (hn : closer ≠ [])
    (hc : ∀ b ∈ closer, isJoinByte b = false) {joins t inner rest : Text}
    (hj : ∀ b ∈ joins, isJoinByte b = true) (h : joins ++ t = inner ++ closer ++ rest) :
    ∃ inner', t = inner' ++ closer ++ rest := by
  obtain ⟨b, u, rfl⟩ := List.exists_cons_of_ne_nil hn
  rw [List.append_assoc] at h
  obtain ⟨v, -, ht⟩ | ⟨v, hv, ht⟩ := List.append_eq_append_iff.1 h
  · exact ⟨v, by rw [ht, List.append_assoc]⟩
  · have hnil : v = [] := eq_nil_of_joins
      (fun c hcv => hj c (hv ▸ List.mem_append_right _ hcv)) (hc b List.mem_cons_self) ht.symm
    rw [hnil, List.nil_append] at ht
    exact ⟨[], ht.symm⟩

/-- A closing text in the source is found, as it has no joins in it. -/
theorem rawBody_of_sources {closer : Text} (hn : closer ≠ [])
    (hc : ∀ b ∈ closer, isJoinByte b = false) {gs : List Glyph} (hj : JoinsOnly gs)
    {inner rest : Text} (h : gs.flatMap source = inner ++ closer ++ rest) :
    ∃ c, rawBody closer gs = some c := by
  induction gs generalizing inner with
  | nil => simp [hn] at h
  | cons g gs ih =>
      rw [rawBody]
      cases hx : contiguous closer (g :: gs) with
      | some c => exact ⟨c, rfl⟩
      | none =>
          obtain ⟨hg, hj'⟩ := List.forall_mem_cons.1 hj
          cases inner with
          | nil =>
              obtain ⟨c, hsome⟩ := contiguous_of_sources hj hc h
              rw [hx] at hsome
              cases hsome
          | cons b inner =>
              rw [List.flatMap_cons, source, List.cons_append] at h
              obtain ⟨inner', h⟩ := exists_append_of_joins hn hc hg (List.cons.inj h).2
              obtain ⟨c, hsome⟩ := ih hj' h
              exact ⟨c.prepend [g], by simp [hsome]⟩

/-- A delimiter in the source is read up to its parenthesis. -/
theorem rawDelimiter_of_sources (start : Pos) {d : Text} {room : Nat} (hlength : d.length ≤ room)
    (hd : ∀ b ∈ d, isBadDelimiter b = false ∧ b ≠ '('.toUInt8) {last : Glyph}
    {gs : List Glyph} (hj : JoinsOnly (last :: gs)) {rest : Text}
    (h : last.splices ++ gs.flatMap source = d ++ '('.toUInt8 :: rest) :
    ∃ ds o hs, rawDelimiter start last room gs = .ok ⟨ds, o :: hs⟩ ∧ spelling ds = d ∧
      JoinsOnly (o :: hs) ∧ o.splices ++ hs.flatMap source = rest := by
  obtain ⟨hlast, hgs⟩ := List.forall_mem_cons.1 hj
  induction d generalizing last gs room with
  | nil =>
      have hnil : last.splices = [] := eq_nil_of_joins hlast (by decide) h
      rw [hnil] at h
      cases gs with
      | nil => cases h
      | cons g gs =>
          rw [List.flatMap_cons, source] at h
          obtain ⟨hg, htail⟩ := List.cons.inj h
          refine ⟨[], g, gs, ?_, rfl, hgs, htail⟩
          simp [rawDelimiter, hnil, hg]
  | cons b d ih =>
      obtain ⟨⟨hbad, hopen⟩, hd'⟩ := List.forall_mem_cons.1 hd
      have hnil : last.splices = [] := eq_nil_of_joins hlast (isJoinByte_eq_false hbad) h
      rw [hnil] at h
      cases gs with
      | nil => cases h
      | cons g gs =>
          rw [List.flatMap_cons, source] at h
          obtain ⟨rfl, htail⟩ := List.cons.inj h
          rw [List.length_cons] at hlength
          obtain ⟨hg, hgs'⟩ := List.forall_mem_cons.1 hgs
          have hroom : d.length ≤ room - 1 := by omega
          obtain ⟨ds, o, hs, hok, hsp, hjs, hrest⟩ := ih hroom hd' hgs htail hg hgs'
          refine ⟨g :: ds, o, hs, ?_, by rw [spelling_cons, hsp], hjs, hrest⟩
          rw [rawDelimiter, if_neg (by simp [hnil]), if_neg hopen, if_neg (by simp [hbad]),
            if_neg (by omega), hok]
          rfl

/-- What closes a raw string has no byte of a join. -/
theorem isJoinByte_closer {d : Text}
    (hd : ∀ b ∈ d, isBadDelimiter b = false ∧ b ≠ '('.toUInt8) :
    ∀ b ∈ ')'.toUInt8 :: d ++ [Byte.quote], isJoinByte b = false := by
  refine List.forall_mem_append.2 ⟨List.forall_mem_cons.2 ⟨by decide, fun b hb => ?_⟩,
    List.forall_mem_singleton.2 (by decide)⟩
  exact isJoinByte_eq_false (hd b hb).1

/-- A raw string in the source is scanned. -/
theorem rawString_of_sources (start : Pos) {q : Glyph} {gs : List Glyph} (hj : JoinsOnly (q :: gs))
    (h : RawFirst (q.splices ++ gs.flatMap source)) : ∃ c, rawString start q gs = .ok c := by
  obtain ⟨d, inner, rest, ht, hlength, hd⟩ := h
  obtain ⟨ds, o, hs, hok, hsp, hjs, hrest⟩ := rawDelimiter_of_sources start hlength hd hj ht
  have hc := isJoinByte_closer hd
  obtain ⟨ho, hjs⟩ := List.forall_mem_cons.1 hjs
  obtain ⟨inner', hs'⟩ := exists_append_of_joins (by simp) hc ho hrest
  obtain ⟨c, hbody⟩ := rawBody_of_sources (by simp) hc hjs hs'
  have hcloser : ascii ")" ++ spelling ds ++ ascii "\"" = ')'.toUInt8 :: d ++ [Byte.quote] := by
    rw [hsp]
    rfl
  refine ⟨c.prepend (q :: ds ++ [o]), ?_⟩
  simp only [rawString, hok, bind, Except.bind, hcloser, List.drop_succ_cons, List.drop_zero, hbody,
    List.take_succ_cons, List.take_zero]

theorem rawFault_of_rawDelimiter (start : Pos) (last : Glyph) (room : Nat) (gs : List Glyph) :
    FailsIn (fun e => RawFault e.fault) (rawDelimiter start last room gs) := by
  fun_induction rawDelimiter start last room gs with
  | case1 => exact .error .unterminated
  | case2 | case3 | case5 => exact .error (.byte _)
  | case4 => exact .ok _
  | case6 => exact .error .tooLong
  | case7 _ _ _ _ _ _ _ _ ih => exact ih.map _

theorem rawFault_of_rawString (start : Pos) (q : Glyph) (gs : List Glyph) :
    FailsIn (fun e => RawFault e.fault) (rawString start q gs) := by
  refine (rawFault_of_rawDelimiter start q maxDelimiter gs).bind fun d _ => ?_
  simp only
  split
  · exact .ok _
  · exact .error .unterminated

end RawStrings

section Stopping

theorem literalTail_tolerant_ne_broken (mark : UInt8) (gs : List Glyph) (e : Error) :
    literalTail true stop mark gs ≠ .broken e := by
  have hprepend {us : List Glyph} {q : Closing} (h : q ≠ .broken e) :
      q.prepend us ≠ .broken e := by
    cases q with
    | closed c | unclosed c => exact Closing.noConfusion
    | broken f => exact h
  fun_induction literalTail true stop mark gs with
  | case1 | case2 | case3 | case4 | case5 | case6 => exact Closing.noConfusion
  | case7 _ _ _ _ _ _ _ ih => exact hprepend ih
  | case8 _ _ _ _ _ _ _ _ _ ht ih => exact hprepend ih
  | case9 _ _ _ _ _ _ _ _ _ ht => exact absurd rfl ht
  | case10 _ _ _ _ _ _ _ _ ih => exact hprepend ih
  | case11 _ _ _ _ _ _ ih => exact hprepend ih

/-- A tolerant scan takes every literal that is not raw. -/
theorem quotedLexeme_tolerant_ne_error {start : Pos} {kind : Kind} {letters : List Glyph}
    {q : Glyph} {gs : List Glyph} (e : Error) :
    quotedLexeme true start stop kind letters q gs ≠ .error e := by
  unfold quotedLexeme
  split
  · rintro ⟨⟩
  · rintro ⟨⟩
  · rename_i h
    exact absurd h (literalTail_tolerant_ne_broken _ _ _)

theorem obstacle_of_encodedLexeme {g : Glyph} {gs : List Glyph} {e : Error} (hr : Read (g :: gs))
    (hg : (ascii "uULR").contains g.byte = true) (h : encodedLexeme true stop g gs = .error e) :
    Obstacle ((g :: gs).flatMap source) e.fault := by
  have hw := whole_encoding g gs
  have hs := encoding_sound gs hg
  unfold encodedLexeme at h
  rcases he : encoding g gs with ⟨letters, raw⟩
  simp only [he] at h hw hs
  split at h
  · rename_i q t ht
    rw [Cut.whole, ht] at hw
    rw [← hw] at hr ⊢
    split at h
    · rename_i hq
      split at h
      · rename_i hraw
        rw [hraw] at hs
        have hfail := eq_error_of_map h
        have hrest : ¬RawFirst (q.splices ++ t.flatMap source) := fun hraw => by
          obtain ⟨c, hc⟩ := rawString_of_sources g.pos (.of_read hr.of_append) hraw
          rw [hfail] at hc
          cases hc
        rw [List.flatMap_append, List.flatMap_cons, source, hq, List.cons_append]
        refine .rawString ?_ hrest (rawFault_of_rawString g.pos q t e hfail)
        rwa [hr.unsplice_sources]
      · exact absurd h (quotedLexeme_tolerant_ne_error e)
    · split at h
      · exact absurd h (quotedLexeme_tolerant_ne_error e)
      · cases h
  · cases h

theorem obstacle_of_lexeme {g : Glyph} {gs : List Glyph} {e : Error} (hr : Read (g :: gs))
    (h : lexeme true stop g gs = .error e) : Obstacle ((g :: gs).flatMap source) e.fault := by
  have hu : unsplice ((g :: gs).flatMap source) = spelling (g :: gs) :=
    Read.unsplice_sources (by rwa [List.append_nil])
  unfold lexeme at h
  split at h
  · rename_i hs
    cases h
    obtain ⟨lead, rest, hs, hb, hrest⟩ := of_space_eq_none hs
    exact .comment (hu.trans hs) hb hrest
  · split at h
    · unfold solidLexeme at h
      repeat' split at h
      · rename_i hn
        obtain ⟨hf, t, rest, hs, ht, hrest⟩ :=
          of_numberTail_error (eq_error_of_map (eq_error_of_map h))
        rw [startsNumber_eq, spelling_cons, hs] at hn
        rw [spelling_cons, hs, ← List.cons_append] at hu
        rw [hf]
        exact .separator hu ⟨numberFirst_of_append hn, ht⟩ hrest
      · exact obstacle_of_encodedLexeme hr ‹_› h
      · exact absurd h (quotedLexeme_tolerant_ne_error e)
      · exact absurd h (quotedLexeme_tolerant_ne_error e)
      all_goals cases h
    · cases h

/-- The tokens of a tolerant scan lie one behind the other up to the end of the source, or up to a
comment that is not closed, a raw string that is not complete, or a number with a separator behind
it that no letter or digit follows. -/
theorem scan_tolerant_stops (src : Text) :
    ∃ z : Nat, Tiles (joinsLength src) (scan true src).1 z ∧
      ((scan true src).2 = .eof ∧ z = src.length ∨
        ∃ e, (scan true src).2 = .fault e ∧ Obstacle (src.drop z) e.fault) := by
  obtain ⟨z, rest, ht, hrest, hp⟩ :=
    (stands_ofText src).stops_content (Pos.start.atEnd src) true
  refine ⟨z, ht, ?_⟩
  change pull _ = .stop (scan true src).2 _ at hp
  cases rest with
  | nil =>
      simp only [pull, Pull.stop.injEq] at hp
      exact .inl ⟨hp.1.symm, hrest.eq_length⟩
  | cons g gs =>
      simp only [pull] at hp
      split at hp
      · cases hp
      · rename_i e he
        simp only [Pull.stop.injEq] at hp
        rw [hrest.sources]
        exact .inr ⟨e, hp.1.symm, obstacle_of_lexeme hrest.read he⟩

/-- A separator stops the scan of text without comments and quotes. -/
theorem not_scan_tolerant_separator :
    '/'.toUInt8 ∉ ascii "the 90' x" ∧ Byte.quote ∉ ascii "the 90' x" ∧
      (scan true (ascii "the 90' x")).2 =
        .fault { fault := .separatorWithoutDigit, pos := ⟨7, 1, 8⟩ } := by
  have hscan : scan true (ascii "the 90' x") =
      ([{ kind := .identifier, text := ascii "the", pos := ⟨0, 1, 1⟩, length := 3 },
        { kind := .whitespace, text := ascii " ", pos := ⟨3, 1, 4⟩, length := 1 }],
        .fault { fault := .separatorWithoutDigit, pos := ⟨7, 1, 8⟩ }) :=
    Source.content_of_runWithin (n := 9) (by decide +kernel)
  refine ⟨by decide, by decide, ?_⟩
  rw [hscan]

end Stopping

end Lexer
end CPreprocessor

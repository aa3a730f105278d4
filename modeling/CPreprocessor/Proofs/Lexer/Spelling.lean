import CPreprocessor.Lexer.Lexeme
import CPreprocessor.Proofs.Lexer.RawString
import CPreprocessor.Proofs.Text.Byte
import CPreprocessor.Proofs.Text.Utf8

/-!
The spellings of tokens, kind by kind. The classes are stated on texts; the theorems say
that what each scanner takes is spelled in its class, so that every token of a strict scan,
white space and stray bytes aside, has a spelling of its kind.
-/

namespace CPreprocessor
namespace Spelling

def IsIdentifier : Text → Prop
  | [] => False
  | b :: t => Byte.isIdentStart b = true ∧ ∀ c ∈ t, Byte.isIdent c = true

/-- What may follow the first digit or dot of a number. -/
inductive NumberTail : Text → Prop where
  | nil : NumberTail []
  | exponent {e s : UInt8} {t : Text} : Byte.isExponent e = true → Byte.isSign s = true →
      NumberTail t → NumberTail (e :: s :: t)
  | plain {b : UInt8} {t : Text} : (Byte.isIdent b || b == '.'.toUInt8) = true →
      NumberTail t → NumberTail (b :: t)
  | separated {b : UInt8} {t : Text} : Byte.isIdent b = true →
      NumberTail t → NumberTail (Byte.apostrophe :: b :: t)

theorem numberTail_of_isIdent {t : Text} (h : ∀ b ∈ t, Byte.isIdent b = true) :
    NumberTail t := by
  induction t with
  | nil => exact .nil
  | cons b t ih =>
      obtain ⟨hb, h⟩ := List.forall_mem_cons.1 h
      exact .plain (by rw [hb, Bool.true_or]) (ih h)

/-- Whether a text begins as a number does: with a digit, or with a dot and a digit. -/
def numberFirst : Text → Bool
  | [] => false
  | [b] => Byte.isDigit b
  | b :: c :: _ => Byte.isDigit b || (b == '.'.toUInt8 && Byte.isDigit c)

def IsNumber : Text → Prop
  | [] => False
  | b :: t => numberFirst (b :: t) = true ∧ NumberTail t

/-- Whether a text begins with `n` hexadecimal digits. -/
def hexFirst : Nat → Text → Bool
  | 0, _ => true
  | _ + 1, [] => false
  | n + 1, b :: t => Byte.isHex b && hexFirst n t

/-- Whether `b` and the text after it continue a backslash to an escape sequence. -/
def escapes (b : UInt8) (t : Text) : Bool :=
  Lexer.isSimpleEscape b || Byte.isOctal b || (b == 'x'.toUInt8 && hexFirst 1 t)
    || (b == 'u'.toUInt8 && hexFirst 4 t) || (b == 'U'.toUInt8 && hexFirst 8 t)

/-- A literal after its opening quote, through the closing one. The digits of a numeric
escape sequence are ordinary bytes of the literal. -/
inductive LiteralTail (mark : UInt8) : Text → Prop where
  | close : LiteralTail mark [mark]
  | plain {b : UInt8} {t : Text} : b ≠ mark → Byte.isLineBreak b = false →
      b ≠ Byte.backslash → LiteralTail mark t → LiteralTail mark (b :: t)
  | escape {b : UInt8} {t : Text} : Lexer.isSimpleEscape b = true →
      LiteralTail mark t → LiteralTail mark (Byte.backslash :: b :: t)
  | numeric {b : UInt8} {t : Text} : Lexer.isSimpleEscape b = false → escapes b t = true →
      LiteralTail mark (b :: t) → LiteralTail mark (Byte.backslash :: b :: t)

/-- The encoding letters of literals that are not raw. -/
def charsets : List Text :=
  ["", "u8", "u", "U", "L"].map ascii

def rawLetters : List Text :=
  ["R", "u8R", "uR", "UR", "LR"].map ascii

/-- A raw string from its opening quote: read on its own, it is one raw string. -/
def IsRaw (t : Text) : Prop :=
  ∀ p, ∃ q gs, Glyph.spliced p t = ([], q :: gs) ∧ q.byte = Byte.quote ∧
    Glyph.verbatim (q :: gs) = t ∧ Lexer.rawString p q gs = .ok ⟨q :: gs, []⟩

/-- The bytes that are punctuators by themselves. -/
def isSingle (b : UInt8) : Bool :=
  b < 0x80 && !Byte.isIdent b && b != Byte.quote && b != Byte.apostrophe
    && !Byte.isLineBreak b && !Byte.isBlank b

/-- The kind of literal that a quote opens. -/
inductive Quotes : Kind → UInt8 → Prop where
  | string : Quotes .string Byte.quote
  | character : Quotes .character Byte.apostrophe

/-- The letters that may open the encoding of a literal may open a name too. -/
theorem isIdentStart_of_mem_letters {b : UInt8} (h : b ∈ ascii "uULR") :
    Byte.isIdentStart b = true := by
  have hall : (ascii "uULR").all Byte.isIdentStart = true := by decide
  exact List.all_eq_true.1 hall b h

theorem mem_letters_iff {b : UInt8} :
    b ∈ ascii "uULR" ↔ b ∈ ascii "uUL" ∨ b = 'R'.toUInt8 := by
  rw [← List.mem_singleton, ← List.mem_append]
  rfl

theorem ne_of_mem_letters {b : UInt8} (h : b ∈ ascii "uUL") : b ≠ 'R'.toUInt8 := by
  rintro rfl
  revert h
  decide

theorem mem_of_mem_letters {b : UInt8} (h : b ∈ ascii "uUL") :
    [b] ∈ charsets ∧ [b] ++ ascii "R" ∈ rawLetters := by
  have hall : ((ascii "uUL").all fun b =>
      charsets.contains [b] && rawLetters.contains ([b] ++ ascii "R")) = true := by decide
  simpa using List.all_eq_true.1 hall b h

theorem lt_of_isSingle {b : UInt8} (h : isSingle b = true) : b < 0x80 := by
  simp only [isSingle, Bool.and_eq_true, decide_eq_true_eq] at h
  exact h.1.1.1.1.1

theorem not_isLineBreak_of_isSingle {b : UInt8} (h : isSingle b = true) :
    Byte.isLineBreak b = false := by
  simp only [isSingle, Bool.and_eq_true, Bool.not_eq_true'] at h
  exact h.1.2

theorem isSingle_of_mem_punctuators {t : Text} (h : t ∈ Vocabulary.punctuators) :
    ∀ b ∈ t, isSingle b = true := by
  have hall : (Vocabulary.punctuators.all fun p => p.all isSingle) = true := by decide
  exact List.all_eq_true.1 (List.all_eq_true.1 hall t h)

end Spelling

open Spelling in
/-- The texts a token of each kind may have. -/
inductive Spells : Kind → Text → Prop where
  | identifier {t : Text} : IsIdentifier t → Spells .identifier t
  | number {t : Text} : IsNumber t → Spells .number t
  | literal {k : Kind} {mark : UInt8} {letters t : Text} : Quotes k mark →
      letters ∈ charsets → LiteralTail mark t → Spells k (letters ++ mark :: t)
  | raw {letters t : Text} : letters ∈ rawLetters → IsRaw t → Spells .string (letters ++ t)
  | punctuator {t : Text} : t ∈ Vocabulary.punctuators → Spells .punctuator t
  | single {b : UInt8} : isSingle b = true → Spells .punctuator [b]
  | wide {b : UInt8} {t : Text} {n : Nat} : 0x80 ≤ b → Utf8.decode (b :: t) = some (n, []) →
      Spells .punctuator (b :: t)

namespace Lexer

open Spelling Glyph

theorem missingHex_eq_none (stop : Pos) (n : Nat) (gs : List Glyph) :
    missingHex stop n gs = none ↔ hexFirst n (spelling gs) = true := by
  fun_induction missingHex stop n gs with
  | case1 gs => simp [hexFirst]
  | case2 n => simp [hexFirst, spelling]
  | case3 n g gs hg ih => simp [hexFirst, hg, ih]
  | case4 n g gs hg => simp [hexFirst, hg]

theorem escapeError_eq_none (stop : Pos) (g : Glyph) (gs : List Glyph) :
    escapeError stop g gs = none ↔ escapes g.byte (spelling gs) = true := by
  unfold escapeError escapes
  split
  · simp_all
  · rename_i h₀
    rw [Bool.eq_false_iff.2 h₀, Bool.false_or]
    split
    · rename_i h
      rw [h, Option.map_eq_none_iff, missingHex_eq_none]
      simp +decide
    · split
      · rename_i h
        rw [h, Option.map_eq_none_iff, missingHex_eq_none]
        simp +decide
      · split
        · rename_i h
          rw [h, Option.map_eq_none_iff, missingHex_eq_none]
          simp +decide
        · simp_all

theorem hexFirst_append {n : Nat} {t : Text} (u : Text) (h : hexFirst n t = true) :
    hexFirst n (t ++ u) = true := by
  induction t generalizing n with
  | nil => cases n <;> simp_all [hexFirst]
  | cons b t ih =>
      cases n with
      | zero => rfl
      | succ n =>
          simp only [hexFirst, List.cons_append, Bool.and_eq_true] at h ⊢
          exact ⟨h.1, ih h.2⟩

/-- Digits that are looked for in front of another byte lie before it. -/
theorem hexFirst_of_append {n : Nat} {t u : Text} (h : hexFirst n (t ++ u) = true)
    {c : UInt8} (hc : c ∈ t) (hx : Byte.isHex c = false) : hexFirst n t = true := by
  induction t generalizing n with
  | nil => cases hc
  | cons b t ih =>
      cases n with
      | zero => rfl
      | succ n =>
          simp only [hexFirst, List.cons_append, Bool.and_eq_true] at h ⊢
          refine ⟨h.1, ih h.2 ?_⟩
          obtain rfl | hc := List.mem_cons.1 hc
          · simp [hx] at h
          · exact hc

theorem escapes_append {b : UInt8} {t : Text} (u : Text) (h : escapes b t = true) :
    escapes b (t ++ u) = true := by
  simp only [escapes, Bool.or_eq_true, Bool.and_eq_true] at h ⊢
  exact h.imp (Or.imp (Or.imp_right (And.imp_right (hexFirst_append u)))
    (And.imp_right (hexFirst_append u))) (And.imp_right (hexFirst_append u))

theorem escapes_of_append {b : UInt8} {t u : Text} (h : escapes b (t ++ u) = true)
    {c : UInt8} (hc : c ∈ t) (hx : Byte.isHex c = false) : escapes b t = true := by
  have hd : ∀ n, hexFirst n (t ++ u) = true → hexFirst n t = true :=
    fun n hn => hexFirst_of_append hn hc hx
  simp only [escapes, Bool.or_eq_true, Bool.and_eq_true] at h ⊢
  exact h.imp (Or.imp (Or.imp_right (And.imp_right (hd 1))) (And.imp_right (hd 4)))
    (And.imp_right (hd 8))

theorem not_isLineBreak_of_isSimpleEscape {b : UInt8} (h : isSimpleEscape b = true) :
    Byte.isLineBreak b = false := by
  cases hb : Byte.isLineBreak b with
  | false => rfl
  | true => obtain rfl | rfl := Byte.isLineBreak_eq_true hb <;> cases h

theorem mark_mem_literalTail {mark : UInt8} {t : Text} (h : LiteralTail mark t) :
    mark ∈ t := by
  induction h with
  | close => exact List.mem_singleton_self mark
  | plain _ _ _ _ ih => exact List.mem_cons_of_mem _ ih
  | escape _ _ ih => exact List.mem_cons_of_mem _ (List.mem_cons_of_mem _ ih)
  | numeric _ _ _ ih => exact List.mem_cons_of_mem _ ih

theorem numberTail_sound {stop : Pos} {gs : List Glyph} {c : Cut}
    (h : numberTail stop gs = .ok c) : NumberTail (spelling c.taken) := by
  fun_induction numberTail stop gs generalizing c with
  | case1 | case4 | case9 =>
      cases h
      exact .nil
  | case2 g hg =>
      cases h
      exact .plain hg .nil
  | case3 | case8 => cases h
  | case5 g h' gs hg ih =>
      obtain ⟨d, hd, rfl⟩ := except_map_eq_ok h
      rw [Bool.and_eq_true] at hg
      exact .exponent hg.1 hg.2 (ih hd)
  | case6 g h' gs _ hg ih =>
      obtain ⟨d, hd, rfl⟩ := except_map_eq_ok h
      exact .plain hg (ih hd)
  | case7 g h' gs _ _ hg hh ih =>
      obtain ⟨d, hd, rfl⟩ := except_map_eq_ok h
      have := NumberTail.separated hh (ih hd)
      rwa [← hg] at this

/-- A number goes on over a letter or digit. -/
theorem taken_of_numberTail {stop : Pos} {g : Glyph} {gs : List Glyph} {c : Cut}
    (hg : Byte.isIdent g.byte = true) (h : numberTail stop (g :: gs) = .ok c) :
    ∃ ts, c.taken = g :: ts := by
  cases gs with
  | nil =>
      simp only [numberTail, hg, Bool.true_or, if_true] at h
      cases h
      exact ⟨[], rfl⟩
  | cons h' gs =>
      simp only [numberTail, hg, Bool.true_or, if_true] at h
      split at h
      · obtain ⟨d, hd, rfl⟩ := except_map_eq_ok h
        exact ⟨_, rfl⟩
      · obtain ⟨d, hd, rfl⟩ := except_map_eq_ok h
        exact ⟨_, rfl⟩

theorem number_sound {stop : Pos} {g : Glyph} {gs : List Glyph} {c : Cut}
    (hn : startsNumber (g :: gs) = true) (h : number stop g gs = .ok c) :
    IsNumber (spelling c.taken) := by
  obtain ⟨d, hd, rfl⟩ := except_map_eq_ok h
  refine ⟨?_, numberTail_sound hd⟩
  cases gs with
  | nil =>
      cases hd
      exact hn
  | cons h' gs =>
      simp only [startsNumber, Bool.or_eq_true, Bool.and_eq_true] at hn
      obtain hn | ⟨hdot, hn⟩ := hn
      · cases d.taken <;> simp [numberFirst, hn]
      · obtain ⟨ts, hts⟩ := taken_of_numberTail (by simp [Byte.isIdent, hn]) hd
        simp [hts, numberFirst, hdot, hn]

theorem prepend_eq_closed {gs : List Glyph} {q : Closing} {c : Cut}
    (h : q.prepend gs = .closed c) : ∃ d, q = .closed d ∧ c = d.prepend gs := by
  cases q with
  | closed d => exact ⟨d, rfl, (Closing.closed.inj h).symm⟩
  | unclosed d | broken e => cases h

theorem literalTail_sound {stop : Pos} {k : Kind} {mark : UInt8} {gs : List Glyph} {c : Cut}
    (hm : Quotes k mark) (h : literalTail false stop mark gs = .closed c) :
    LiteralTail mark (spelling c.taken) := by
  have hx : Byte.isHex mark = false := by cases hm <;> decide
  have hs : isSimpleEscape mark = true := by cases hm <;> decide
  generalize ht : false = tolerant at h
  fun_induction literalTail tolerant stop mark gs generalizing c with
  | case1 | case3 | case4 | case6 | case9 => cases h
  | case2 g hg =>
      cases h
      exact hg ▸ .close
  | case5 g h' gs hg =>
      cases h
      exact hg ▸ .close
  | case7 g h' gs _ _ hg hh ih =>
      obtain ⟨d, hd, rfl⟩ := prepend_eq_closed h
      have := LiteralTail.escape hh (ih hd)
      rwa [← hg] at this
  | case8 => simp_all
  | case10 g h' gs _ _ hg hh he ih =>
      obtain ⟨d, hd, rfl⟩ := prepend_eq_closed h
      have hw : d.whole = h' :: gs := whole_of_literalTail (by rw [hd]; rfl)
      have hd' := ih hd
      cases hdt : d.taken with
      | nil =>
          rw [hdt] at hd'
          exact absurd (mark_mem_literalTail hd') (by simp [spelling])
      | cons h'' ds =>
          rw [hdt] at hd'
          rw [Cut.whole, hdt, List.cons_append] at hw
          obtain ⟨rfl, rfl⟩ := List.cons.inj hw
          have hne : h''.byte ≠ mark := by
            rintro hb
            exact hh (hb ▸ hs)
          have hmem : mark ∈ spelling ds :=
            (List.mem_cons.1 (mark_mem_literalTail hd')).resolve_left hne.symm
          rw [escapeError_eq_none, spelling_append] at he
          have := LiteralTail.numeric (Bool.eq_false_iff.2 hh) (escapes_of_append he hmem hx) hd'
          rw [← hg] at this
          simpa [hdt] using this
  | case11 g h' gs hm' hb hg ih =>
      obtain ⟨d, hd, rfl⟩ := prepend_eq_closed h
      exact .plain hm' (Bool.eq_false_iff.2 hb) hg (ih hd)

theorem mem_spanning {p : UInt8 → Bool} {gs : List Glyph} {b : UInt8}
    (h : b ∈ spelling (Cut.spanning p gs).taken) : p b = true := by
  induction gs with
  | nil => cases h
  | cons g gs ih =>
      by_cases hg : p g.byte = true
      · simp only [Cut.spanning, hg, if_true, Cut.taken_prepend, List.cons_append,
          List.nil_append, spelling_cons, List.mem_cons] at h
        obtain rfl | h := h
        · exact hg
        · exact ih h
      · simp [Cut.spanning, hg, spelling] at h

theorem identLexeme_sound {g : Glyph} {gs : List Glyph} (h : Byte.isIdentStart g.byte = true) :
    IsIdentifier (identLexeme (g :: gs)).text := by
  have hg : Byte.isIdent g.byte = true := by simp [Byte.isIdent, h]
  simp only [identLexeme, spelledLexeme, Cut.spanning, hg, if_true, Cut.taken_prepend,
    List.cons_append, List.nil_append, spelling_cons]
  exact ⟨h, fun c hc => mem_spanning hc⟩

theorem spelling_charset (g : Glyph) (gs : List Glyph) :
    spelling (charset g gs).taken = ascii "u8" ∨ spelling (charset g gs).taken = [g.byte] := by
  cases gs with
  | nil => exact .inr rfl
  | cons h gs =>
      by_cases hb : g.byte = 'u'.toUInt8 ∧ h.byte = '8'.toUInt8
      · left
        simp only [charset, hb, and_self, if_true, spelling_cons]
        rfl
      · right
        simp only [charset, hb, if_false]
        rfl

/-- The encoding letters in front, which are those of a raw string if they end in `R`. -/
theorem encoding_sound {g : Glyph} (gs : List Glyph) (h : (ascii "uULR").contains g.byte = true) :
    spelling (encoding g gs).1.taken ∈ if (encoding g gs).2 then rawLetters else charsets := by
  unfold encoding
  split
  · rename_i hg
    simp only [spelling_cons, hg]
    decide
  · rename_i hg
    have hc : spelling (charset g gs).taken ∈ charsets ∧
        spelling (charset g gs).taken ++ ascii "R" ∈ rawLetters := by
      obtain hs | hs := spelling_charset g gs
      · rw [hs]
        decide
      · rw [hs]
        exact mem_of_mem_letters ((mem_letters_iff.1 (List.contains_iff_mem.1 h)).resolve_right hg)
    split
    · rename_i r t hr
      split
      · rename_i hR
        simp only [spelling_append, spelling_cons, hR]
        exact hc.2
      · exact hc.1
    · exact hc.1

theorem quotedLexeme_sound {start stop : Pos} {k : Kind} {letters : List Glyph} {q : Glyph}
    {gs : List Glyph} {x : Lexeme} (hq : Quotes k q.byte) (hl : spelling letters ∈ charsets)
    (h : quotedLexeme false start stop k letters q gs = .ok x) : Spells x.kind x.text := by
  unfold quotedLexeme at h
  split at h
  · rename_i c hc
    cases h
    have := Spells.literal hq hl (literalTail_sound hq hc)
    simpa [spelledLexeme] using this
  · cases h
  · cases h

theorem rawString_sound {start : Pos} {q : Glyph} {gs : List Glyph} {c : Cut}
    (hr : Read (q :: gs)) (hq : q.byte = Byte.quote) (h : rawString start q gs = .ok c) :
    IsRaw (verbatim c.taken) := by
  intro p
  obtain ⟨ts, hts⟩ := taken_of_rawString h
  have hn : c.taken ≠ [] := by simp [hts]
  rw [← whole_of_rawString h, Cut.whole] at hr
  obtain ⟨hl, ha⟩ := hr.spliced_verbatim hn p
  cases hs : (spliced p (verbatim c.taken)).2 with
  | nil =>
      rw [hs] at ha
      cases ha
  | cons q' gs' =>
      have hb : q'.byte = q.byte := by
        rw [hs, hts] at ha
        cases ha <;> assumption
      have := rawString_alike h (hs ▸ ha) p []
      rw [List.append_nil] at this
      exact ⟨q', gs', Prod.ext hl hs, hb.trans hq, hs ▸ ha.verbatim_eq, this⟩

theorem encodedLexeme_sound {stop : Pos} {g : Glyph} {gs : List Glyph} {x : Lexeme}
    (hr : Read (g :: gs)) (hg : (ascii "uULR").contains g.byte = true)
    (h : encodedLexeme false stop g gs = .ok x) : Spells x.kind x.text := by
  have hi : IsIdentifier (identLexeme (g :: gs)).text :=
    identLexeme_sound (isIdentStart_of_mem_letters (List.contains_iff_mem.1 hg))
  have hw := whole_encoding g gs
  have hs := encoding_sound gs hg
  unfold encodedLexeme at h
  rcases he : encoding g gs with ⟨letters, raw⟩
  simp only [he] at h hw hs
  split at h
  · rename_i q t ht
    rw [← hw, Cut.whole, ht] at hr
    split at h
    · rename_i hq
      split at h
      · rename_i hraw
        obtain ⟨c, hc, rfl⟩ := except_map_eq_ok h
        rw [hraw] at hs
        exact .raw hs (rawString_sound hr.of_append hq hc)
      · rename_i hraw
        rw [if_neg hraw] at hs
        exact quotedLexeme_sound (hq ▸ .string) hs h
    · split at h
      · rename_i hq
        rw [hq.2] at hs
        exact quotedLexeme_sound (hq.1 ▸ .character) hs h
      · cases h
        exact .identifier hi
  · cases h
    exact .identifier hi

theorem unbroken_isPrefix (gs : List Glyph) : unbroken gs <+: spelling gs := by
  induction gs with
  | nil => exact List.nil_prefix
  | cons g gs ih =>
      rw [unbroken]
      split
      · exact List.cons_prefix_cons.2 ⟨rfl, ih⟩
      · exact List.cons_prefix_cons.2 ⟨rfl, List.nil_prefix⟩

theorem wideLexeme_sound {g : Glyph} {gs : List Glyph} (hg : 0x80 ≤ g.byte)
    (hk : (wideLexeme g gs).kind ≠ .invalid) :
    Spells (wideLexeme g gs).kind (wideLexeme g gs).text := by
  unfold wideLexeme at hk ⊢
  simp only at hk ⊢
  split at hk
  · rename_i n rest hd
    obtain ⟨b, u, hu, -, -, -, hdec⟩ := Utf8.decode_eq_some hd
    have hp : b :: u <+: spelling (g :: gs) := by
      have h₁ : b :: u <+: unbroken ((g :: gs).take 4) := ⟨rest, hu.symm⟩
      have h₂ : spelling ((g :: gs).take 4) <+: spelling (g :: gs) :=
        (List.take_prefix 4 (g :: gs)).map _
      exact (h₁.trans (unbroken_isPrefix _)).trans h₂
    have hw : (unbroken ((g :: gs).take 4)).length - rest.length = (b :: u).length := by
      rw [hu, List.length_append]
      omega
    have ht : spelling ((g :: gs).take (b :: u).length) = b :: u := by
      rw [spelling, List.map_take]
      exact (List.prefix_iff_eq_take.1 hp).symm
    simp only [hw, spelledLexeme, ht]
    have hdu := hdec []
    rw [List.append_nil] at hdu
    have hb : b = g.byte := (List.cons_prefix_cons.1 hp).1
    exact .wide (hb ▸ hg) hdu
  · exact absurd rfl hk

theorem spelled_eq_some {t : Text} {gs : List Glyph} {c : Cut} (h : Cut.spelled t gs = some c) :
    spelling c.taken = t := by
  induction t generalizing gs c with
  | nil => cases h; rfl
  | cons b t ih =>
      cases gs with
      | nil => cases h
      | cons g gs =>
          simp only [Cut.spelled] at h
          split at h
          · rename_i hb
            obtain ⟨d, hd, rfl⟩ := Option.map_eq_some_iff.1 h
            simp [hb, ih hd]
          · cases h

theorem punctLexeme_sound {g : Glyph} {gs : List Glyph} (hg : isSingle g.byte = true) :
    Spells (punctLexeme g gs).kind (punctLexeme g gs).text := by
  unfold punctLexeme
  split
  · rename_i c hc
    obtain ⟨p, hp, hs⟩ := List.exists_of_findSome?_eq_some hc
    rw [← spelled_eq_some hs] at hp
    exact .punctuator hp
  · exact .single hg

theorem not_blank_of_space {g : Glyph} {gs : List Glyph} {s : Space}
    (h : space (g :: gs) = some s) (hs : s.text = []) :
    Byte.isLineBreak g.byte = false ∧ Byte.isBlank g.byte = false := by
  rw [space] at h
  split at h
  · obtain ⟨d, hd, rfl⟩ := Option.map_eq_some_iff.1 h
    cases hs
  · split at h
    · obtain ⟨d, hd, rfl⟩ := Option.map_eq_some_iff.1 h
      cases hs
    · simp_all

theorem not_digit_of_not_startsNumber {g : Glyph} {gs : List Glyph}
    (h : startsNumber (g :: gs) = false) : Byte.isDigit g.byte = false := by
  cases gs with
  | nil => exact h
  | cons h' gs => exact (Bool.or_eq_false_iff.1 h).1

/-- What a strict scan takes is spelled in the class of its kind. -/
theorem lexeme_sound {stop : Pos} {g : Glyph} {gs : List Glyph} {x : Lexeme}
    (hr : Read (g :: gs)) (h : lexeme false stop g gs = .ok x) (hw : x.kind ≠ .whitespace)
    (hi : x.kind ≠ .invalid) : Spells x.kind x.text := by
  unfold lexeme at h
  split at h
  · cases h
  · rename_i s hs
    split at h
    · rename_i ht
      obtain ⟨hlb, hbl⟩ := not_blank_of_space hs ht
      unfold solidLexeme at h
      split at h
      · rename_i hn
        obtain ⟨c, hc, rfl⟩ := except_map_eq_ok h
        exact .number (number_sound hn hc)
      · rename_i hn
        split at h
        · rename_i hu
          exact encodedLexeme_sound hr hu h
        · split at h
          · rename_i hq
            exact quotedLexeme_sound (hq ▸ .string) (by decide) h
          · split at h
            · rename_i hq
              exact quotedLexeme_sound (hq ▸ .character) (by decide) h
            · split at h
              · rename_i hid
                cases h
                exact .identifier (identLexeme_sound hid)
              · split at h
                · rename_i hwide
                  cases h
                  exact wideLexeme_sound hwide hi
                · rename_i hq ha hid hwide
                  cases h
                  refine punctLexeme_sound ?_
                  have hd := not_digit_of_not_startsNumber (Bool.eq_false_iff.2 hn)
                  simp_all [isSingle, Byte.isIdent]
    · cases h
      exact absurd rfl hw

end Lexer
end CPreprocessor

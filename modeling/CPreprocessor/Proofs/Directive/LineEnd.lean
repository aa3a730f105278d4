import CPreprocessor.Proofs.Directive.Nesting
import CPreprocessor.Proofs.Outcome

/-!
Every directive line that is executed returns the white space that ends it: the first line
end among its tokens, however much of the line the directive has read before.
-/

namespace CPreprocessor

namespace Token

theorem not_isLineEnd_of_isGap {t : Token} (h : t.isGap = true) : t.isLineEnd = false := by
  simp only [isGap, Bool.and_eq_true, Bool.not_eq_true'] at h
  simp [isLineEnd, h.2]

/-- Gaps in front do not hide the line end. -/
theorem find?_dropWhile_isGap (ts : List Token) :
    (ts.dropWhile isGap).find? isLineEnd = ts.find? isLineEnd := by
  induction ts with
  | nil => rfl
  | cons t ts ih =>
      by_cases ht : t.isGap = true
      · rw [List.dropWhile_cons_of_pos ht, ih,
          List.find?_cons_of_neg (by simp [not_isLineEnd_of_isGap ht])]
      · rw [List.dropWhile_cons_of_neg ht]

end Token

namespace Line

theorem split_eof (ts : List Token) :
    split ⟨ts, .eof⟩ = .ok (ts.takeWhile fun t => !t.isLineEnd, ts.find? Token.isLineEnd) := by
  simp only [split]
  cases ts.find? Token.isLineEnd <;> rfl

theorem finish_eof (ts : List Token) : finish ⟨ts, .eof⟩ = .ok (ts.find? Token.isLineEnd) := by
  rw [finish, split_eof]
  rfl

theorem takeSpace_eof (ts : List Token) :
    TokenStream.takeSpace false (⟨ts, .eof⟩ : Line) =
      (⟨ts.takeWhile Token.isGap, none⟩, ⟨ts.dropWhile Token.isGap, .eof⟩) := by
  induction ts with
  | nil => rw [TokenStream.takeSpace]; rfl
  | cons t ts ih =>
      rw [TokenStream.takeSpace]
      simp only [TokenStream.next, next]
      by_cases ht : t.isGap = true
      · have ht' : (t.isSpace && (false || !t.newline)) = true := by simpa [Token.isGap] using ht
        rw [if_pos ht', ih, List.takeWhile_cons_of_pos ht, List.dropWhile_cons_of_pos ht]
        rfl
      · have ht' : ¬(t.isSpace && (false || !t.newline)) = true := by
          simpa [Token.isGap] using ht
        rw [if_neg ht', List.takeWhile_cons_of_neg ht, List.dropWhile_cons_of_neg ht]
        rfl

theorem stop_of_takeLineEnd {ts : List Token} {stop : Option Token}
    (h : (TokenStream.takeLineEnd (⟨ts, .eof⟩ : Line)).1 = .ok stop) :
    stop = ts.find? Token.isLineEnd := by
  induction ts with
  | nil =>
      rw [TokenStream.takeLineEnd] at h
      cases h
      rfl
  | cons t ts ih =>
      rw [TokenStream.takeLineEnd] at h
      simp only [TokenStream.next, next] at h
      by_cases ht : t.isLineEnd = true
      · rw [if_pos ht] at h
        cases h
        rw [List.find?_cons_of_pos ht]
      · rw [if_neg ht] at h
        rw [List.find?_cons_of_neg ht]
        split at h
        · exact ih h
        · cases h

/-- A name is taken off the front, and it ends no line. -/
theorem of_takeName {ts : List Token} {id : Token} {l : Line}
    (h : TokenStream.takeName (⟨ts, .eof⟩ : Line) = (.ok id, l)) :
    l = ⟨l.tokens, .eof⟩ ∧ l.tokens.find? Token.isLineEnd = ts.find? Token.isLineEnd := by
  cases ts with
  | nil =>
      simp only [TokenStream.takeName, TokenStream.next, next] at h
      cases h
  | cons t ts =>
      simp only [TokenStream.takeName, TokenStream.next, next] at h
      split at h
      · rename_i hk
        cases h
        exact ⟨rfl,
          by rw [List.find?_cons_of_neg (by simp [Token.isLineEnd, Token.isSpace, hk])]⟩
      · cases h

end Line

open TokenStream

theorem stop_of_definedCheck {name : Token} {ts : List Token} {st : Directive.State} {b : Bool}
    {stop : Option Token} (h : st.definedCheck name ⟨ts, .eof⟩ = .ok (b, stop)) :
    stop = ts.find? Token.isLineEnd := by
  simp only [Directive.State.definedCheck, Line.takeSpace_eof] at h
  split at h
  · cases h
  · rename_i id l hn
    obtain ⟨hl, hf⟩ := Line.of_takeName hn
    cases hs : (takeLineEnd l).1 with
    | error e =>
        rw [hs] at h
        cases h
    | ok s =>
        rw [hs] at h
        cases h
        rw [hl] at hs
        rw [Line.stop_of_takeLineEnd hs, hf, Token.find?_dropWhile_isGap]

namespace Definition

theorem of_readName {ts : List Token} {name : Token} {l : Line}
    (h : readName ⟨ts, .eof⟩ = .ok (name, l)) :
    l = ⟨l.tokens, .eof⟩ ∧ l.tokens.find? Token.isLineEnd = ts.find? Token.isLineEnd := by
  simp only [readName, Line.takeSpace_eof] at h
  split at h
  · cases h
  · rename_i id l' hn
    split at h
    · cases h
    · cases h
      obtain ⟨hl, hf⟩ := Line.of_takeName hn
      exact ⟨hl, hf.trans (Token.find?_dropWhile_isGap ts)⟩

/-- A parameter list does not go beyond its line. -/
theorem find?_of_params {name : Token} {st : Expecting} {ts rest : List Token} {ps : List Text}
    (h : params name .eof st ts = .ok (ps, rest)) :
    rest.find? Token.isLineEnd = ts.find? Token.isLineEnd := by
  induction ts generalizing st ps with
  | nil => simp [params] at h
  | cons t ts ih =>
      rw [params.eq_def] at h
      simp only at h
      split at h
      · rename_i hg
        rw [ih h, List.find?_cons_of_neg (by simp [Token.not_isLineEnd_of_isGap hg])]
      · split at h
        · cases h
        · rename_i ht
          rw [List.find?_cons_of_neg ht]
          cases st with
          | separator =>
              simp only at h
              split at h
              · cases h; rfl
              · split at h
                · exact ih h
                · cases h
          | afterEllipsis =>
              simp only at h
              split at h
              · cases h; rfl
              · cases h
          | first | param =>
              simp only at h
              split at h
              · cases h; rfl
              · split at h
                · exact ih h
                · split at h
                  · split at h
                    · cases h
                    · obtain ⟨⟨qs, r⟩, hq, he⟩ := except_map_eq_ok h
                      cases he
                      exact ih hq
                  · cases h

theorem of_head {name : Token} {ts : List Token} {ps : Option (List Text)} {l : Line}
    (h : head name ⟨ts, .eof⟩ = .ok (ps, l)) :
    l = ⟨l.tokens, .eof⟩ ∧ l.tokens.find? Token.isLineEnd = ts.find? Token.isLineEnd := by
  cases ts with
  | nil =>
      cases h
      exact ⟨rfl, rfl⟩
  | cons t ts =>
      simp only [head] at h
      split at h
      · rename_i hp
        obtain ⟨⟨qs, rest⟩, hq, he⟩ := except_map_eq_ok h
        cases he
        refine ⟨rfl, ?_⟩
        rw [find?_of_params hq, List.find?_cons_of_neg]
        simp only [Token.isPunct, Bool.and_eq_true, beq_iff_eq] at hp
        simp [Token.isLineEnd, Token.isSpace, hp.1]
      · split at h
        · cases h
          exact ⟨rfl, rfl⟩
        · cases h

theorem stop_of_define {T T' : Table} {ts : List Token} {stop : Option Token}
    (h : define T ⟨ts, .eof⟩ = .ok (T', stop)) : stop = ts.find? Token.isLineEnd := by
  obtain ⟨⟨m, s⟩, hr, h⟩ := except_bind_eq_ok h
  obtain ⟨U, -, h⟩ := except_bind_eq_ok h
  cases h
  obtain ⟨⟨name, l⟩, hn, hr⟩ := except_bind_eq_ok hr
  obtain ⟨⟨ps, l'⟩, hp, hr⟩ := except_bind_eq_ok hr
  obtain ⟨hl, hf⟩ := of_readName hn
  rw [hl] at hp
  obtain ⟨hl', hf'⟩ := of_head hp
  simp only at hr
  rw [hl', Line.split_eof] at hr
  cases hr
  exact hf'.trans hf

theorem stop_of_undef {T T' : Table} {ts : List Token} {stop : Option Token}
    (h : undef T ⟨ts, .eof⟩ = .ok (T', stop)) : stop = ts.find? Token.isLineEnd := by
  obtain ⟨⟨name, l⟩, hn, h⟩ := except_bind_eq_ok h
  obtain ⟨s, hs, h⟩ := except_bind_eq_ok h
  cases h
  obtain ⟨hl, hf⟩ := of_readName hn
  rw [hl] at hs
  exact (Line.stop_of_takeLineEnd hs).trans hf

end Definition
end CPreprocessor

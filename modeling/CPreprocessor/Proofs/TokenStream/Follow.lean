import CPreprocessor.Proofs.Token.Placement
import CPreprocessor.TokenStream

/-!
Streams that follow one another. A stream follows another if it hands out the same tokens, up
to places, for as long as the other one goes on, and ends alike. Or it has more to say where
the other ends: the last token of the other is then white space, and the tokens there need not
agree.
-/

namespace CPreprocessor

theorem Token.not_isPunct_of_isSpace {t : Token} (h : t.isSpace = true) (s : Text) :
    t.isPunct s = false := by
  simp only [isSpace, beq_iff_eq] at h
  simp [isPunct, h]

theorem Token.kind_ne_identifier_of_isSpace {t : Token} (h : t.isSpace = true) :
    t.kind ≠ .identifier := by
  simp only [isSpace, beq_iff_eq] at h
  simp [h]

/-- Outputs that differ in places only, with errors of one kind. -/
structure Output.Alike (out out' : Output) : Prop where
  tokens : Token.Alike out.tokens out'.tokens
  error : out.error.map Error.kind = out'.error.map Error.kind

theorem Output.Alike.refl (out : Output) : Output.Alike out out :=
  ⟨.refl out.tokens, rfl⟩

theorem Output.Alike.of_error {ts : List Token} {e : Error} {out : Output}
    (h : Output.Alike ⟨ts, some e⟩ out) :
    ∃ us e', out = ⟨us, some e'⟩ ∧ Token.Alike ts us ∧ e.kind = e'.kind := by
  obtain ⟨us, e'⟩ := out
  obtain ⟨e', rfl, hk⟩ := Option.map_eq_some_iff.1 h.error.symm
  exact ⟨us, e', rfl, h.tokens, hk.symm⟩

theorem Output.Alike.of_complete {ts : List Token} {out : Output}
    (h : Output.Alike ⟨ts, none⟩ out) : ∃ us, out = ⟨us, none⟩ ∧ Token.Alike ts us := by
  obtain ⟨us, e'⟩ := out
  obtain rfl : e' = none := Option.map_eq_none_iff.1 h.error.symm
  exact ⟨us, rfl, h.tokens⟩

namespace TokenStream

variable {ρ ρ' : Type} [TokenStream ρ] [TokenStream ρ']

/-- Only white space is left to be read. -/
def Blank (r : ρ) : Prop :=
  ∀ t ∈ (content r).1, t.isSpace = true

theorem Blank.of_token {r s : ρ} {t : Token} (h : Blank r) (hn : next r = .token t s) :
    t.isSpace = true ∧ Blank s := by
  rw [Blank, content_of_token hn] at h
  exact ⟨h t List.mem_cons_self, fun u hu => h u (List.mem_cons_of_mem t hu)⟩

theorem Blank.of_stop {r s : ρ} {e : End} (hn : next r = .stop e s) : Blank s := by
  intro t ht
  rw [(content_of_stop hn).2] at ht
  cases ht

theorem Blank.unread {r : ρ} (h : Blank r) {ts : List Token}
    (hts : ∀ t ∈ ts, t.isSpace = true) :
    Blank (unread ts r) := by
  intro t ht
  rw [content_unread] at ht
  exact (List.mem_append.1 ht).elim (hts t) (h t)

theorem takeSpace_of_token {r s : ρ} {t : Token} (hn : next r = .token t s) (nl : Bool) :
    takeSpace nl r =
      if t.isSpace && (nl || !t.newline) then
        ((takeSpace nl s).1.prepend [t], (takeSpace nl s).2)
      else ({}, unread [t] s) := by
  rw [takeSpace]
  split <;> simp_all

theorem takeSpace_of_stop {r s : ρ} {e : End} (hn : next r = .stop e s) (nl : Bool) :
    takeSpace nl r = (⟨[], e.error?⟩, s) := by
  rw [takeSpace]
  split <;> simp_all

theorem Blank.takeSpace {r : ρ} (h : Blank r) (nl : Bool) : Blank (takeSpace nl r).2 := by
  fun_induction TokenStream.takeSpace nl r with
  | case1 r t s hn ht out s' hs ih =>
      rw [hs] at ih
      exact ih (h.of_token hn).2
  | case2 r t s hn ht =>
      obtain ⟨hsp, hb⟩ := h.of_token hn
      exact hb.unread (by simpa using hsp)
  | case3 r e s hn => exact Blank.of_stop hn

theorem isSpace_of_takeSpace (nl : Bool) (r : ρ) :
    ∀ t ∈ (takeSpace nl r).1.tokens, t.isSpace = true := by
  fun_induction TokenStream.takeSpace nl r with
  | case1 r t s hn ht out s' hs ih =>
      rw [hs] at ih
      intro u hu
      rcases List.mem_cons.1 hu with rfl | hu
      · exact (Bool.and_eq_true_iff.1 ht).1
      · exact ih u hu
  | case2 | case3 =>
      intro u hu
      cases hu

theorem Blank.takePunct {r s : ρ} (h : Blank r) {text : Text} {o : Option Token}
    (hs : takePunct text r = (.ok o, s)) : o = none ∧ Blank s := by
  simp only [TokenStream.takePunct, takeIf] at hs
  split at hs
  · rename_i t r₁ hn
    obtain ⟨hsp, hb⟩ := h.of_token hn
    rw [Token.not_isPunct_of_isSpace hsp] at hs
    cases hs
    exact ⟨rfl, hb.unread (by simpa using hsp)⟩
  · rename_i r₁ hn
    cases hs
    exact ⟨rfl, Blank.of_stop hn⟩
  · cases hs

/-- Under `cross` the relation may end where the first stream has only white space left, and an
error of the first stream is not compared. -/
structure Follows (cross : Prop) (R : ρ → ρ' → Prop) : Prop where
  token : ∀ {r r' s t}, R r r' → next r = .token t s →
    (∃ u s', next r' = .token u s' ∧ t.unplaced = u.unplaced ∧ R s s') ∨
      (cross ∧ t.isSpace = true ∧ Blank s)
  stop : ∀ {r r' s e}, R r r' → next r = .stop e s →
    (¬cross ∧ ∃ e' s', next r' = .stop e' s' ∧ e.Akin e' ∧ R s s') ∨
    (cross ∧ e ≠ .eof)
  unread : ∀ {r r' ts us}, R r r' → Token.Alike ts us → R (unread ts r) (unread us r')

namespace Follows

variable {cross : Prop} {R : ρ → ρ' → Prop} {r s : ρ} {r' : ρ'}

theorem takeSpace (hF : Follows cross R) {nl : Bool} {out : Output} (h : R r r')
    (hs : takeSpace nl r = (out, s)) :
    (∃ out' s', TokenStream.takeSpace nl r' = (out', s') ∧ out.Alike out' ∧ R s s') ∨
      (cross ∧ (out.error = none → Blank s)) := by
  have hcond {t u : Token} (htu : t.unplaced = u.unplaced) :=
    Token.congr_unplaced htu (f := fun t => t.isSpace && (nl || !t.newline)) fun _ => rfl
  fun_induction TokenStream.takeSpace nl r generalizing r' out with
  | case1 r t r₁ hn ht out₁ r₂ hr ih =>
      cases hs
      rcases hF.token h hn with ⟨u, r₁', hn', htu, h₁⟩ | ⟨hc, -, hb⟩
      · rcases ih h₁ hr with ⟨us, s', hs', hus, hR⟩ | hcross
        · refine .inl ⟨us.prepend [u], s', ?_, ⟨hus.tokens.cons htu, hus.error⟩, hR⟩
          rw [takeSpace_of_token hn', ← hcond htu, if_pos ht, hs']
        · exact .inr hcross
      · have hb' := hb.takeSpace nl
        rw [hr] at hb'
        exact .inr ⟨hc, fun _ => hb'⟩
  | case2 r t r₁ hn ht =>
      cases hs
      rcases hF.token h hn with ⟨u, r₁', hn', htu, h₁⟩ | ⟨hc, hsp, hb⟩
      · refine .inl ⟨{}, _, ?_, .refl {}, hF.unread h₁ ((Token.Alike.refl []).cons htu)⟩
        rw [takeSpace_of_token hn', ← hcond htu, if_neg ht]
      · exact .inr ⟨hc, fun _ => hb.unread (by simpa using hsp)⟩
  | case3 r e r₁ hn =>
      cases hs
      rcases hF.stop h hn with ⟨-, e', s', hn', he, hR⟩ | ⟨hc, he⟩
      · exact .inl ⟨_, s', takeSpace_of_stop hn' nl, ⟨.refl [], he⟩, hR⟩
      · refine .inr ⟨hc, fun hnone => ?_⟩
        cases e with
        | eof => exact absurd rfl he
        | fault e => cases hnone

/-- A punctuator is no white space, so it is matched. -/
theorem punct (hF : Follows cross R) {t : Token} {p : Text} (h : R r r')
    (hn : next r = .token t s) (ht : t.isPunct p = true) :
    ∃ u s', next r' = .token u s' ∧ t.unplaced = u.unplaced ∧ R s s' := by
  refine (hF.token h hn).resolve_right fun ⟨_, hsp, _⟩ => ?_
  rw [Token.not_isPunct_of_isSpace hsp] at ht
  cases ht

theorem takePunct (hF : Follows cross R) {text : Text} {x : Except Error (Option Token)}
    (h : R r r') (hs : takePunct text r = (x, s)) :
    (∃ x' s', TokenStream.takePunct text r' = (x', s') ∧
        (verdict x).map Option.isSome = (verdict x').map Option.isSome ∧ R s s') ∨
      (cross ∧ ∀ o, x = .ok o → o = none ∧ Blank s) := by
  simp only [TokenStream.takePunct, takeIf] at hs ⊢
  split at hs
  · rename_i t r₁ hn
    rcases hF.token h hn with ⟨u, r₁', hn', htu, h₁⟩ | ⟨hc, hsp, hb⟩
    · simp only [hn', ← Token.isPunct_eq htu]
      split at hs
      · rename_i ht
        cases hs
        exact .inl ⟨.ok (some u), r₁', if_pos ht, rfl, h₁⟩
      · rename_i ht
        cases hs
        exact .inl ⟨.ok none, _, if_neg ht, rfl,
          hF.unread h₁ ((Token.Alike.refl []).cons htu)⟩
    · rw [Token.not_isPunct_of_isSpace hsp] at hs
      cases hs
      refine .inr ⟨hc, ?_⟩
      rintro _ ⟨⟩
      exact ⟨rfl, hb.unread (by simpa using hsp)⟩
  · rename_i r₁ hn
    cases hs
    rcases hF.stop h hn with ⟨-, e', s', hn', he, hR⟩ | ⟨-, he⟩
    · cases he.of_eof
      simp only [hn']
      exact .inl ⟨.ok none, s', rfl, rfl, hR⟩
    · exact absurd rfl he
  · rename_i e r₁ hn
    cases hs
    rcases hF.stop h hn with ⟨-, e', s', hn', he, hR⟩ | ⟨hc, -⟩
    · obtain ⟨f, rfl, hk⟩ := he.of_fault
      simp only [hn']
      exact .inl ⟨.error f, s', rfl, congrArg Except.error hk, hR⟩
    · exact .inr ⟨hc, fun o ho => by cases ho⟩

end Follows
end TokenStream
end CPreprocessor

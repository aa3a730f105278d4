import CPreprocessor.Proofs.Macro.Follow
import CPreprocessor.Proofs.TokenStream.Content

/-!
Expanded texts of sources that follow one another. As long as the first source goes on, what it
is expanded to is what the second one is expanded to, up to places, and it fails in the same
way. Where the first source ends
and the second goes on, the expansion of the first may have looked further ahead than it may
in the second: only behind a name that would have been an invocation.
-/

namespace CPreprocessor

open TokenStream (Blank)

variable {σ τ : Type} [Tabled σ] [Tabled τ]

/-- The second source hands out the tokens of the first, up to places, with the same macros in
force, and ends alike. Under `cross` it goes on where the first one ends; the last token there
is white space in the first source and need not be the same in the second. -/
structure Source.Follows (cross : Prop) (S : σ → τ → Prop) : Prop where
  token : ∀ {s s' s₁ t}, S s s' → Source.pull s = .token t s₁ →
    (∃ u s₁', Source.pull s' = .token u s₁' ∧ t.unplaced = u.unplaced ∧ S s₁ s₁') ∨
      (cross ∧ t.isSpace = true ∧ (Source.content s₁).1 = [])
  stop : ∀ {s s' s₁ e}, S s s' → Source.pull s = .stop e s₁ →
    (¬cross ∧ ∃ e' s₁', Source.pull s' = .stop e' s₁' ∧ e.Akin e' ∧ S s₁ s₁') ∨
      (cross ∧ e ≠ .eof)
  table : ∀ {s s'}, S s s' → (Tabled.table s).unplaced = (Tabled.table s').unplaced

namespace Buffered

/-- Buffers of sources that follow one another, and that have returned the same tokens. -/
structure Follow (cross : Prop) (S : σ → τ → Prop) (r : Buffered σ) (r' : Buffered τ) :
    Prop where
  returned : Token.Alike r.returned r'.returned
  source : S r.source r'.source
  ended : (r.ended = none ∧ r'.ended = none) ∨
    (¬cross ∧ ∃ e e', r.ended = some e ∧ r'.ended = some e' ∧ e.Akin e')

/-- A token is matched, or it is the last of the first source. -/
theorem follow_next {cross : Prop} {S : σ → τ → Prop} (hS : Source.Follows cross S)
    {r s : Buffered σ} {r' : Buffered τ} {t : Token} (h : Follow cross S r r')
    (hn : r.next = .token t s) :
    (∃ u s', r'.next = .token u s' ∧ t.unplaced = u.unplaced ∧ Follow cross S s s') ∨
      (cross ∧ t.isSpace = true ∧ r = ofSource r.source ∧ r' = ofSource r'.source ∧
        ∃ s₁, Source.pull r.source = .token t s₁ ∧ (Source.content s₁).1 = [] ∧
          s = ofSource s₁) := by
  obtain ⟨source, returned, ended⟩ := r
  obtain ⟨source', returned', ended'⟩ := r'
  obtain ⟨hret, hsrc, hend⟩ := h
  simp only at hret hsrc hend
  cases returned with
  | cons u us =>
      obtain ⟨v, vs, rfl, huv, hvs⟩ := hret.of_cons
      cases hn
      exact .inl ⟨v, _, rfl, huv, hvs, hsrc, hend⟩
  | nil =>
      obtain rfl := hret.of_nil
      cases ended with
      | some e => cases hn
      | none =>
          obtain ⟨-, rfl⟩ := hend.resolve_right (by simp)
          simp only [next] at hn ⊢
          cases hp : Source.pull source with
          | stop e s₁ =>
              rw [hp] at hn
              cases hn
          | token u s₁ =>
              rw [hp] at hn
              cases hn
              rcases hS.token hsrc hp with ⟨v, s₁', hp', huv, hR⟩ | ⟨hc, hsp, hnil⟩
              · rw [hp']
                exact .inl ⟨v, _, rfl, huv, .refl [], hR, .inl ⟨rfl, rfl⟩⟩
              · exact .inr ⟨hc, hsp, rfl, rfl, s₁, rfl, hnil, rfl⟩

theorem follows {cross : Prop} {S : σ → τ → Prop} (hS : Source.Follows cross S) :
    TokenStream.Follows cross (Follow cross S) where
  token {r r' s t} h hn := by
    rcases follow_next hS h hn with hmatch | ⟨hc, hsp, -, -, s₁, -, hnil, rfl⟩
    · exact .inl hmatch
    · refine .inr ⟨hc, hsp, ?_⟩
      intro u hu
      change u ∈ [] ++ (Source.content s₁).1 at hu
      rw [hnil] at hu
      cases hu
  stop {r r' s e} h hn := by
    obtain ⟨source, returned, ended⟩ := r
    obtain ⟨source', returned', ended'⟩ := r'
    obtain ⟨hret, hsrc, hend⟩ := h
    simp only at hret hsrc hend
    cases returned with
    | cons u us => cases hn
    | nil =>
        obtain rfl := hret.of_nil
        rcases hend with ⟨rfl, rfl⟩ | ⟨hc, f, f', rfl, rfl, hf⟩
        · simp only [TokenStream.next, next] at hn ⊢
          cases hp : Source.pull source with
          | token u s₁ =>
              rw [hp] at hn
              cases hn
          | stop e s₁ =>
              rw [hp] at hn
              cases hn
              rcases hS.stop hsrc hp with ⟨hc, e', s₁', hp', he, hR⟩ | hcross
              · rw [hp']
                exact .inl ⟨hc, e', _, rfl, he, .refl [], hR, .inr ⟨hc, _, _, rfl, rfl, he⟩⟩
              · exact .inr hcross
        · cases hn
          exact .inl ⟨hc, f', _, rfl, hf, .refl [], hsrc, .inr ⟨hc, _, _, rfl, rfl, hf⟩⟩
  unread h hts := ⟨hts.append h.returned, h.source, h.ended⟩

end Buffered

theorem Token.getLast?_solid_cons (t : Token) {u : Token} {ts : List Token}
    (h : u ∈ (Token.solid ts).getLast?) : u ∈ (Token.solid (t :: ts)).getLast? := by
  cases hsolid : Token.solid ts with
  | nil =>
      rw [hsolid] at h
      cases h
  | cons v vs =>
      rw [hsolid] at h
      rw [Token.solid, List.filter_cons]
      split
      · rw [← Token.solid, hsolid, List.getLast?_cons_cons]
        exact h
      · rw [← Token.solid, hsolid]
        exact h

/-- The frame with no places. -/
def Frame.unplaced (f : Frame) : Frame :=
  { f with rest := f.rest.map Token.unplaced }

theorem Frame.unplaced_congr {c c' : Context} (hc : c = c') {ts ts' : List Token}
    (hts : Token.Alike ts ts') : Frame.unplaced ⟨c, ts⟩ = Frame.unplaced ⟨c', ts'⟩ := by
  rw [unplaced, unplaced, hc, hts]

namespace ExpandedText

open Expansion

section Equations

variable {x : ExpandedText σ} {f : Frame} {fs : List Frame}

theorem pull_of_stop {e : End} {r : Buffered σ} (hx : x.frames = [])
    (hs : step (fun r => Tabled.table r.source) false 0 [] x.input = .stop e r) :
    x.pull = .stop e { x with input := r } := by
  rw [pull]
  split
  · split <;> simp_all
  · simp_all

theorem pull_of_emit {t : Token} {op : List Token} {r : Buffered σ} (hx : x.frames = [])
    (hs : step (fun r => Tabled.table r.source) false 0 [] x.input = .emit t op r) :
    x.pull = .token t { x with input := r } := by
  rw [pull]
  split
  · split <;> simp_all
  · simp_all

theorem pull_of_call {m : Macro} {args : List (List Token)} {r : Buffered σ}
    (hx : x.frames = [])
    (hs : step (fun r => Tabled.table r.source) false 0 [] x.input = .call m args r) :
    x.pull = match replacement (Tabled.table r.source) false 0 m args with
      | .error e => .stop (.fault e) { x with input := r }
      | .ok body => pull { input := r, frames := [⟨[m.name], body⟩] } := by
  rw [pull]
  split
  · split
    · simp_all
    · simp_all
    · rename_i m' args' r' hs'
      rw [hs] at hs'
      cases hs'
      rfl
  · simp_all

theorem pull_of_frame_stop {rest : List Token} (hx : x.frames = f :: fs)
    (hs : step (fun _ => x.table) false (fs.length + 1) f.context f.rest = .stop .eof rest) :
    x.pull = pull { x with frames := fs } := by
  rw [pull]
  split
  · simp_all
  · rename_i f' fs' hx'
    rw [hx] at hx'
    cases hx'
    split <;> simp_all

theorem pull_of_frame_fault {e : Error} {rest : List Token} (hx : x.frames = f :: fs)
    (hs : step (fun _ => x.table) false (fs.length + 1) f.context f.rest = .stop (.fault e) rest) :
    x.pull = .stop (.fault e) x := by
  rw [pull]
  split
  · simp_all
  · rename_i f' fs' hx'
    rw [hx] at hx'
    cases hx'
    split <;> simp_all

theorem pull_of_frame_emit {t : Token} {op rest : List Token} (hx : x.frames = f :: fs)
    (hs : step (fun _ => x.table) false (fs.length + 1) f.context f.rest = .emit t op rest) :
    x.pull = .token t { x with frames := { f with rest } :: fs } := by
  rw [pull]
  split
  · simp_all
  · rename_i f' fs' hx'
    rw [hx] at hx'
    cases hx'
    split <;> simp_all

theorem pull_of_frame_call {m : Macro} {args : List (List Token)} {rest : List Token}
    (hx : x.frames = f :: fs)
    (hs : step (fun _ => x.table) false (fs.length + 1) f.context f.rest = .call m args rest) :
    x.pull = match replacement x.table false (fs.length + 1) m args with
      | .error e => .stop (.fault e) x
      | .ok body => pull { x with
          frames := ⟨f.context.extend m.name, body⟩ :: { f with rest } :: fs } := by
  rw [pull]
  split
  · simp_all
  · rename_i f' fs' hx'
    rw [hx] at hx'
    cases hx'
    split
    · simp_all
    · simp_all
    · simp_all
    · rename_i m' args' rest' hs'
      rw [hs] at hs'
      cases hs'
      split <;> simp_all

end Equations

/-- Expanded texts of sources that follow one another, with the same replacements waiting. -/
structure Follow (cross : Prop) (S : σ → τ → Prop) (x : ExpandedText σ)
    (x' : ExpandedText τ) : Prop where
  input : Buffered.Follow cross S x.input x'.input
  frames : x.frames.map Frame.unplaced = x'.frames.map Frame.unplaced

omit [Tabled σ] [Tabled τ] in
theorem Follow.ofSource {cross : Prop} {S : σ → τ → Prop} {s : σ} {s' : τ} (h : S s s') :
    Follow cross S (ofSource s) (ofSource s') :=
  ⟨⟨.refl [], h, .inl ⟨rfl, rfl⟩⟩, rfl⟩

/-- What the second text does when the first is asked for a token. -/
inductive Matches (cross : Prop) (S : σ → τ → Prop) (x' : ExpandedText τ) :
    Pull (ExpandedText σ) → Prop where
  | fault {e y} : cross → Matches cross S x' (.stop (.fault e) y)
  | stop {e e' y y'} : ¬cross → x'.pull = .stop e' y' → e.Akin e' → Follow cross S y y' →
      Matches cross S x' (.stop e y)
  | token {t t' y y'} : x'.pull = .token t' y' → t.unplaced = t'.unplaced →
      Follow cross S y y' → Matches cross S x' (.token t y)
  /-- The first text has looked behind a name for a parenthesis until its end. -/
  | name {t y} : cross → t.kind = .identifier → y.frames = [] → Blank y.input →
      Matches cross S x' (.token t y)
  /-- The last token of the first source has been handed out. -/
  | last {t s s' s₁} : cross → S s s' → Source.pull s = .token t s₁ → t.isSpace = true →
      (Source.content s₁).1 = [] →
      (∀ t' s₁', Source.pull s' = .token t' s₁' → t'.kind ≠ .identifier →
        x'.pull = .token t' (.ofSource s₁')) →
      Matches cross S x' (.token t (.ofSource s₁))

theorem Matches.of_pull_eq {cross : Prop} {S : σ → τ → Prop} {x' z' : ExpandedText τ}
    {p : Pull (ExpandedText σ)} (h : x'.pull = z'.pull) (hm : Matches cross S z' p) :
    Matches cross S x' p := by
  cases hm with
  | fault hc => exact .fault hc
  | stop hc hp he hR => exact .stop hc (h.trans hp) he hR
  | token hp ht hR => exact .token (h.trans hp) ht hR
  | name hc hk hf hb => exact .name hc hk hf hb
  | last hc hS hp ht hnil hlast =>
      exact .last hc hS hp ht hnil fun t' s₁' hp' hk => h.trans (hlast t' s₁' hp' hk)

theorem Matches.of_kind {cross : Prop} {S : σ → τ → Prop} {x' y' : ExpandedText τ}
    {y : ExpandedText σ} {e e' : Error} (hp : x'.pull = .stop (.fault e') y')
    (hk : e.kind = e'.kind) (hF : Follow cross S y y') :
    Matches cross S x' (.stop (.fault e) y) := by
  by_cases hc : cross
  · exact .fault hc
  · exact .stop hc hp (.fault hk) hF

theorem emit_of_invocation {ρ : Type} [TokenStream ρ] {m : Macro} {t u : Token} {r s : ρ}
    {op : List Token} (h : invocation m t r = .emit u op s) : u = t := by
  unfold invocation at h
  split at h
  · cases h
  · split at h
    · cases h
    · cases h
      rfl
    · split at h
      · cases h
      · split at h <;> cases h

/-- A step that hands out white space has read nothing else. -/
theorem next_of_emit_space {ρ : Type} [TokenStream ρ] {table : ρ → Table} {keep : Bool}
    {depth : Nat} {ctx : Context} {r s : ρ} {t : Token} {op : List Token}
    (h : step table keep depth ctx r = .emit t op s) (ht : t.kind ≠ .identifier) :
    TokenStream.next r = .token t s := by
  unfold step at h
  split at h
  · cases h
  · rename_i u r₁ hn
    split at h
    · cases h
      exact hn
    · rename_i hk
      have hu : t ≠ u := by
        rintro rfl
        exact hk ht
      exfalso
      split at h
      · cases h
      · split at h
        · split at h
          · cases h
          · cases h
            exact hu rfl
        · split at h
          · cases h
            exact hu rfl
          · split at h
            · cases h
              exact hu rfl
            · split at h
              · cases h
              · split at h
                · exact hu (emit_of_invocation h)
                · cases h

theorem step_of_next {ρ : Type} [TokenStream ρ] {r s : ρ} {t : Token}
    (h : TokenStream.next r = .token t s) (ht : t.kind ≠ .identifier) (table : ρ → Table)
    (keep : Bool) (depth : Nat) (ctx : Context) :
    step table keep depth ctx r = .emit t [] s := by
  rw [step, h]
  exact if_pos ht

theorem pull_of_next_stop {x : ExpandedText σ} {e : End} {r : Buffered σ} (hx : x.frames = [])
    (hn : TokenStream.next x.input = .stop e r) : x.pull = .stop e { x with input := r } := by
  refine pull_of_stop hx ?_
  rw [step, hn]

theorem pull_of_next {x : ExpandedText σ} {t : Token} {r : Buffered σ} (hx : x.frames = [])
    (hn : TokenStream.next x.input = .token t r) (ht : t.kind ≠ .identifier) :
    x.pull = .token t { x with input := r } :=
  pull_of_emit hx (step_of_next hn ht _ _ _ _)

/-- The replacements of matching invocations match. -/
theorem follow_replacement_of_table {T T' : Table} (hT : T.unplaced = T'.unplaced) {depth : Nat}
    {m m' : Macro} (hm : m.unplaced = m'.unplaced) {args args' : List (List Token)}
    (hargs : Arguments.unplacedLists args = Arguments.unplacedLists args') :
    (verdict (replacement T false depth m args)).map (List.map Token.unplaced) =
      (verdict (replacement T' false depth m' args')).map (List.map Token.unplaced) :=
  follow_replacement false (follow_expandAt hT false (depth + 1) []) hm hargs

namespace Follow

variable {cross : Prop} {S : σ → τ → Prop} {x : ExpandedText σ} {x' : ExpandedText τ}
  {f : Frame} {fs : List Frame} {m : Macro} {args : List (List Token)}

omit [Tabled σ] [Tabled τ] in
theorem frames_nil (h : Follow cross S x x') (hx : x.frames = []) : x'.frames = [] := by
  have hf := h.frames
  rw [hx] at hf
  exact List.map_eq_nil_iff.1 hf.symm

theorem table_eq (hS : Source.Follows cross S) (h : Follow cross S x x') :
    x.table.unplaced = x'.table.unplaced :=
  hS.table h.input.source

/-- The next steps on the sources. -/
theorem step_source (hS : Source.Follows cross S) (h : Follow cross S x x') :
    Step.Matches cross (Buffered.Follow cross S)
        (step (fun r => Tabled.table r.source) false 0 [] x.input)
        (step (fun r => Tabled.table r.source) false 0 [] x'.input) ∨
      (cross ∧ Step.Crosses (step (fun r => Tabled.table r.source) false 0 [] x.input)) :=
  follow_step (Buffered.follows hS) (fun hr => hS.table hr.source) (fun hk => by cases hk) 0 []
    h.input

/-- The next steps on the replacements that are read. -/
theorem step_frame (hS : Source.Follows cross S) (h : Follow cross S x x')
    (hx : x.frames = f :: fs) :
    ∃ f' fs', x'.frames = f' :: fs' ∧ f.context = f'.context ∧
      fs.map Frame.unplaced = fs'.map Frame.unplaced ∧
      Step.Matches False Token.Alike
        (step (fun _ => x.table) false (fs.length + 1) f.context f.rest)
        (step (fun _ => x'.table) false (fs'.length + 1) f'.context f'.rest) := by
  have hf := h.frames
  rw [hx] at hf
  obtain ⟨f', fs', hx', hf', hfs'⟩ := List.map_eq_cons_iff.1 hf.symm
  obtain ⟨hcontext, hrest⟩ := Frame.mk.inj hf'
  have hlength : fs'.length = fs.length := by
    simpa using congrArg List.length hfs'
  refine ⟨f', fs', hx', hcontext.symm, hfs'.symm, ?_⟩
  rw [← hcontext, hlength]
  exact matches_step (h.table_eq hS) false _ _ hrest.symm

/-- Invocations on the sources, and what replaces them. -/
theorem call_source (hS : Source.Follows cross S) (h : Follow cross S x x') {r : Buffered σ}
    (hs : step (fun r => Tabled.table r.source) false 0 [] x.input = .call m args r) :
    ∃ m' args' r', step (fun r => Tabled.table r.source) false 0 [] x'.input =
      .call m' args' r' ∧ m.name = m'.name ∧ Buffered.Follow cross S r r' ∧
      (verdict (replacement (Tabled.table r.source) false 0 m args)).map
          (List.map Token.unplaced) =
        (verdict (replacement (Tabled.table r'.source) false 0 m' args')).map
          (List.map Token.unplaced) := by
  have hm := h.step_source hS
  rw [hs] at hm
  obtain ⟨m', args', r', hs', hmm, hargs, hR⟩ := (hm.resolve_right And.right).of_call
  exact ⟨m', args', r', hs', Macro.name_eq hmm, hR,
    follow_replacement_of_table (hS.table hR.source) hmm hargs⟩

/-- Invocations on the replacements that are read, and what replaces them. -/
theorem call_frame (hS : Source.Follows cross S) (h : Follow cross S x x')
    (hx : x.frames = f :: fs) {rest : List Token}
    (hs : step (fun _ => x.table) false (fs.length + 1) f.context f.rest = .call m args rest) :
    ∃ f' fs' m' args' rest', x'.frames = f' :: fs' ∧ f.context = f'.context ∧
      fs.map Frame.unplaced = fs'.map Frame.unplaced ∧
      step (fun _ => x'.table) false (fs'.length + 1) f'.context f'.rest = .call m' args' rest' ∧
      m.name = m'.name ∧ Token.Alike rest rest' ∧
      (verdict (replacement x.table false (fs.length + 1) m args)).map (List.map Token.unplaced) =
        (verdict (replacement x'.table false (fs'.length + 1) m' args')).map
          (List.map Token.unplaced) := by
  obtain ⟨f', fs', hx', hcontext, hfs, hm⟩ := h.step_frame hS hx
  rw [hs] at hm
  obtain ⟨m', args', rest', hs', hmm, hargs, hrest⟩ := hm.of_call
  have hlength : fs.length = fs'.length := by
    simpa using congrArg List.length hfs
  refine ⟨f', fs', m', args', rest', hx', hcontext, hfs, hs', Macro.name_eq hmm, hrest, ?_⟩
  rw [hlength]
  exact follow_replacement_of_table (h.table_eq hS) hmm hargs

/-- A token of the source is handed out. Behind it there may be white space only: then it is the
last one of the source, or a name that has been looked at for an invocation. -/
theorem matches_emit (hS : Source.Follows cross S) (h : Follow cross S x x')
    (hx : x.frames = []) {t : Token} {op : List Token} {r : Buffered σ}
    (hs : step (fun r => Tabled.table r.source) false 0 [] x.input = .emit t op r) :
    Matches cross S x' (.token t { x with input := r }) := by
  have hx' := h.frames_nil hx
  have hm := h.step_source hS
  rw [hs] at hm
  rcases hm with hm | ⟨hc, hb, hsp | hk⟩
  · obtain ⟨t', op', r', hs', ht, -, hR⟩ := hm.of_emit
    exact .token (pull_of_emit hx' hs') ht ⟨hR, h.frames⟩
  · have hk := Token.kind_ne_identifier_of_isSpace hsp
    rcases Buffered.follow_next hS h.input (next_of_emit_space hs hk) with
      ⟨u, s', hn', htu, hR⟩ | ⟨-, -, -, hsource, s₁, hp, hnil, rfl⟩
    · have hk' : u.kind ≠ .identifier := by
        rwa [← Token.kind_eq htu]
      exact .token (pull_of_next hx' hn' hk') htu ⟨hR, h.frames⟩
    · rw [hx]
      refine .last hc h.input.source hp hsp hnil fun t' s₁' hp' hk' => ?_
      have hn' : TokenStream.next x'.input = .token t' (.ofSource s₁') := by
        rw [hsource]
        simp only [TokenStream.next, Buffered.next, Buffered.ofSource, hp']
      rw [pull_of_next hx' hn' hk', hx']
      rfl
  · exact .name hc hk hx hb

end Follow

theorem follow_pull {cross : Prop} {S : σ → τ → Prop} (hS : Source.Follows cross S)
    {x : ExpandedText σ} {x' : ExpandedText τ} (h : Follow cross S x x') :
    Matches cross S x' x.pull := by
  fun_induction pull x generalizing x' with
  | case1 x hx e r hs =>
      have hm := h.step_source hS
      rw [hs] at hm
      rcases (hm.resolve_right And.right).of_stop with
        ⟨hc, e, rfl⟩ | ⟨hc, e', r', hs', he, hR⟩
      · exact .fault hc
      · exact .stop hc (pull_of_stop (h.frames_nil hx) hs') he ⟨hR, h.frames⟩
  | case2 x hx t op r hs => exact h.matches_emit hS hx hs
  | case3 x hx m args r hs e hb =>
      obtain ⟨m', args', r', hs', -, hR, hr⟩ := h.call_source hS hs
      rw [hb] at hr
      obtain ⟨e', hb', hk⟩ := error_of_verdict_map_eq hr
      have hp' := pull_of_call (h.frames_nil hx) hs'
      rw [hb'] at hp'
      exact .of_kind hp' hk ⟨hR, h.frames⟩
  | case4 x hx m args r hs body hb ih =>
      obtain ⟨m', args', r', hs', hname, hR, hr⟩ := h.call_source hS hs
      rw [hb] at hr
      obtain ⟨body', hb', hbody⟩ := ok_of_verdict_map_eq hr
      have hp' := pull_of_call (h.frames_nil hx) hs'
      rw [hb'] at hp'
      have hpush : Follow cross S { input := r, frames := [⟨[m.name], body⟩] }
          { input := r', frames := [⟨[m'.name], body'⟩] } := by
        refine ⟨hR, ?_⟩
        rw [List.map_singleton, List.map_singleton, Frame.unplaced_congr (by rw [hname]) hbody]
      exact (ih hpush).of_pull_eq hp'
  | case5 x f fs hx rest hs ih =>
      obtain ⟨f', fs', hx', -, hfs, hm⟩ := h.step_frame hS hx
      rw [hs] at hm
      obtain ⟨-, e', rest', hs', he, -⟩ := hm.of_stop.resolve_left And.left
      cases he.of_eof
      have hpop : Follow cross S { x with frames := fs } { x' with frames := fs' } :=
        ⟨h.input, hfs⟩
      exact (ih hpop).of_pull_eq (pull_of_frame_stop hx' hs')
  | case6 x f fs hx e rest hs =>
      obtain ⟨f', fs', hx', -, -, hm⟩ := h.step_frame hS hx
      rw [hs] at hm
      obtain ⟨-, e', rest', hs', he, -⟩ := hm.of_stop.resolve_left And.left
      obtain ⟨e', rfl, hk⟩ := he.of_fault
      exact .of_kind (pull_of_frame_fault hx' hs') hk h
  | case7 x f fs hx t op rest hs =>
      obtain ⟨f', fs', hx', hcontext, hfs, hm⟩ := h.step_frame hS hx
      rw [hs] at hm
      obtain ⟨t', op', rest', hs', ht, -, hrest⟩ := hm.of_emit
      refine .token (pull_of_frame_emit hx' hs') ht ⟨h.input, ?_⟩
      rw [List.map_cons, List.map_cons, hfs, Frame.unplaced_congr hcontext hrest]
  | case8 x f fs hx m args rest hs e hb =>
      obtain ⟨f', fs', m', args', rest', hx', -, -, hs', -, -, hr⟩ := h.call_frame hS hx hs
      rw [hb] at hr
      obtain ⟨e', hb', hk⟩ := error_of_verdict_map_eq hr
      have hp' := pull_of_frame_call hx' hs'
      rw [hb'] at hp'
      exact .of_kind hp' hk h
  | case9 x f fs hx m args rest hs body hb ih =>
      obtain ⟨f', fs', m', args', rest', hx', hcontext, hfs, hs', hname, hrest, hr⟩ :=
        h.call_frame hS hx hs
      rw [hb] at hr
      obtain ⟨body', hb', hbody⟩ := ok_of_verdict_map_eq hr
      have hp' := pull_of_frame_call hx' hs'
      rw [hb'] at hp'
      have hpush : Follow cross S
          { x with frames := ⟨f.context.extend m.name, body⟩ :: { f with rest } :: fs }
          { x' with
            frames :=
              ⟨f'.context.extend m'.name, body'⟩ :: { f' with rest := rest' } :: fs' } := by
        refine ⟨h.input, ?_⟩
        rw [List.map_cons, List.map_cons, List.map_cons, List.map_cons, hfs,
          Frame.unplaced_congr (by rw [hcontext, hname]) hbody,
          Frame.unplaced_congr hcontext hrest]
      exact (ih hpush).of_pull_eq hp'

section Run

open Source (Runs)

variable {cross : Prop} {S : σ → τ → Prop} {x y : ExpandedText σ} {x' : ExpandedText τ}
  {ts : List Token}

/-- The run of a text is matched to its end by a text that does not go on behind it. -/
theorem follow_runs (hS : Source.Follows cross S) (hc : ¬cross) (h : Follow cross S x x') {e : End}
    (hr : Runs x ts e y) :
    ∃ ts' e' y', Runs x' ts' e' y' ∧ Token.Alike ts ts' ∧ e.Akin e' ∧
      Follow cross S y y' := by
  induction hr generalizing x' with
  | @stop x e y hp =>
      have hm := follow_pull hS h
      rw [show x.pull = _ from hp] at hm
      cases hm with
      | fault hcross => exact absurd hcross hc
      | stop _ hp' he hF => exact ⟨[], _, _, .stop hp', .refl [], he, hF⟩
  | @token x y z t ts e hp _ ih =>
      have hm := follow_pull hS h
      rw [show x.pull = _ from hp] at hm
      cases hm with
      | token hp' ht hF =>
          obtain ⟨ts', e', z', hr', hts, he, hF'⟩ := ih hF
          exact ⟨_ :: ts', e', z', .token hp' hr', hts.cons ht, he, hF'⟩
      | name hcross => exact absurd hcross hc
      | last hcross => exact absurd hcross hc

theorem pull_ofSource_stop {s s₁ : σ} {e : End} (h : Source.pull s = .stop e s₁) :
    Source.pull (ofSource s) = .stop e ⟨{ source := s₁, ended := some e }, []⟩ := by
  refine pull_of_next_stop (x := ofSource s) rfl ?_
  change Buffered.next _ = _
  simp only [Buffered.next, ofSource, Buffered.ofSource, h]

theorem pull_ofSource {s s₁ : σ} {t : Token} (h : Source.pull s = .token t s₁)
    (ht : t.kind ≠ .identifier) : Source.pull (ofSource s) = .token t (ofSource s₁) := by
  refine pull_of_next (x := ofSource s) rfl ?_ ht
  change Buffered.next _ = _
  simp only [Buffered.next, ofSource, Buffered.ofSource, h]

/-- White space is handed out as it is. -/
theorem isSpace_of_runs (hx : x.frames = []) (hb : Blank x.input) {e : End} (hd : Runs x ts e y) :
    ∀ t ∈ ts, t.isSpace = true := by
  induction hd with
  | stop => exact fun t ht => by cases ht
  | @token x y z t ts e hp _ ih =>
      cases hn : TokenStream.next x.input with
      | stop e r =>
          rw [show Source.pull x = _ from pull_of_next_stop hx hn] at hp
          cases hp
      | token u r =>
          obtain ⟨hsp, hb'⟩ := hb.of_token hn
          have hu := pull_of_next hx hn (Token.kind_ne_identifier_of_isSpace hsp)
          rw [show Source.pull x = _ from hu] at hp
          cases hp
          intro v hv
          rcases List.mem_cons.1 hv with rfl | hv
          · exact hsp
          · exact ih hx hb' v hv

/-- The run of a text whose source is continued. Its last token is the last one of the source,
and up to there the second text hands out the same; the run of the second text is then that of
the second source. -/
theorem follow_runs_until (hS : Source.Follows cross S) (hc : cross) (h : Follow cross S x x')
    (hd : Runs x ts .eof y) (hlast : ∀ t ∈ (Token.solid ts).getLast?, t.kind ≠ .identifier) :
    ∃ us us' w s s' s₁ s₂, ts = us ++ [w] ∧ Token.Alike us us' ∧ S s s' ∧
      Source.pull s = .token w s₁ ∧ Source.pull s₁ = .stop .eof s₂ ∧
      y.table = Tabled.table s₂ ∧
      ∀ t' s₁' vs e z, Source.pull s' = .token t' s₁' → t'.isSpace = true →
        Runs (ofSource s₁') vs e z → Runs x' (us' ++ t' :: vs) e z := by
  generalize he : End.eof = e at hd
  induction hd generalizing x' with
  | @stop x e y hp =>
      subst he
      have hm := follow_pull hS h
      rw [show x.pull = _ from hp] at hm
      cases hm with
      | stop hcross => exact absurd hc hcross
  | @token x y z t ts e hp hd ih =>
      have hm := follow_pull hS h
      rw [show x.pull = _ from hp] at hm
      cases hm with
      | @token _ t' _ y' hp' ht hF =>
          obtain ⟨us, us', w, s, s', s₁, s₂, rfl, hus, hs, hw, hstop, htable, hrun⟩ :=
            ih hF (fun u hu => hlast u (Token.getLast?_solid_cons t hu)) he
          refine ⟨t :: us, t' :: us', w, s, s', s₁, s₂, rfl, hus.cons ht, hs, hw,
            hstop, htable, ?_⟩
          intro u s₁' vs f z' hu hsp hz
          exact .token hp' (hrun u s₁' vs f z' hu hsp hz)
      | name _ hk hf hb =>
          have hnil : Token.solid ts = [] := by
            refine List.filter_eq_nil_iff.2 fun u hu => ?_
            simp [isSpace_of_runs hf hb hd u hu]
          have hsolid : Token.solid (t :: ts) = [t] := by
            rw [Token.solid, List.filter_cons_of_pos (by simp [Token.isSpace, hk]), ← Token.solid,
              hnil]
          exact absurd hk (hlast t (by rw [hsolid]; rfl))
      | @last _ s s' s₁ _ hs hw _ hnil hrun =>
          cases hp₁ : Source.pull s₁ with
          | token v s₂ =>
              rw [Source.content_of_token hp₁] at hnil
              cases hnil
          | stop f s₂ =>
              subst he
              obtain ⟨rfl, rfl, rfl⟩ := hd.of_stop (pull_ofSource_stop hp₁)
              refine ⟨[], [], t, s, s', s₁, s₂, rfl, .refl [], hs, hw, hp₁, rfl, ?_⟩
              intro u s₁' vs f z' hu hsp hz
              exact .token (hrun u s₁' hu (Token.kind_ne_identifier_of_isSpace hsp)) hz

end Run

end ExpandedText
end CPreprocessor

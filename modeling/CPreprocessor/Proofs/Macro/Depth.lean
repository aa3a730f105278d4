import CPreprocessor.Proofs.Macro.Failure

/-!
Expansion ends for every table, on or above the deepest level. No name occurs twice in the
context of a scan. Where all macros are object-like, a scan stands as many levels deep as its
context has names, and these are names of macros: the limit on the levels is out of reach for
as many macros as there are levels.
-/

namespace CPreprocessor

namespace Expansion

open Relation (ReflTransGen)

namespace Scan

variable {T : Table} {keep : Bool} {s s' : Scan}

/-- A scan on a permitted level, in a context of distinct names of macros. -/
structure Sound (T : Table) (s : Scan) : Prop where
  depth_le : s.depth ≤ depthLimit
  nodup : s.context.Nodup
  defined : s.context ⊆ T.entries.map Macro.name

theorem sound_start (ts : List Token) : Sound T (start ts) :=
  ⟨Nat.zero_le _, List.nodup_nil, List.nil_subset _⟩

/-- A name that is not in the context can be added to it. -/
theorem Sound.nodup_extend (h : Sound T s) {m : Macro} (hm : m ∈ T.entries)
    (hn : m.name ∉ s.context) :
    (s.context.extend m.name).Nodup ∧ s.context.extend m.name ⊆ T.entries.map Macro.name := by
  refine ⟨List.nodup_append.2 ⟨h.nodup, by simp, ?_⟩, ?_⟩
  · rintro a ha b hb rfl
    rw [List.mem_singleton] at hb
    exact hn (hb ▸ ha)
  · exact List.append_subset.2 ⟨h.defined, by simpa using ⟨m, hm, rfl⟩⟩

theorem Sound.of_leads (h : Sound T s) (hl : Leads T keep s s') : Sound T s' := by
  cases hl with
  | onward | resume => exact ⟨h.depth_le, h.nodup, h.defined⟩
  | argument hs _ _ => exact ⟨(size_of_call hs).2, List.nodup_nil, List.nil_subset _⟩
  | rescan hs _ =>
      obtain ⟨hm, hn, -⟩ := of_step_call hs
      obtain ⟨hnodup, hdefined⟩ := h.nodup_extend hm hn
      exact ⟨(size_of_call hs).2, hnodup, hdefined⟩

theorem Sound.of_reaches (h : Sound T s) (hr : ReflTransGen (Leads T keep) s s') : Sound T s' := by
  induction hr with
  | refl => exact h
  | tail _ hl ih => exact ih.of_leads hl

/-- With object-like macros only, levels are replacements. -/
theorem length_context_of_reaches (hT : ∀ m ∈ T.entries, m.functionLike = false)
    (h : s.context.length = s.depth) (hr : ReflTransGen (Leads T keep) s s') :
    s'.context.length = s'.depth := by
  induction hr with
  | refl => exact h
  | tail _ hl ih =>
      cases hl with
      | onward | resume => exact ih
      | argument hs hargs _ =>
          obtain ⟨hm, -, hnil⟩ := of_step_call hs
          rw [if_neg (by simp [hT _ hm])] at hnil
          rw [hnil] at hargs
          exact absurd hargs.symm (by simp)
      | rescan => simp [rescan, Context.extend, ih]

/-- No more distinct names than macros: at the limit every macro is in the context. -/
theorem Sound.not_tooDeep (h : Sound T s) (hlen : s.context.length = s.depth)
    (hsize : T.size ≤ depthLimit) {m : Macro} (hm : m ∈ T.entries) (hn : m.name ∉ s.context) :
    s.depth < depthLimit := by
  obtain ⟨hnodup, hdefined⟩ := h.nodup_extend hm hn
  have hle := (List.subperm_of_subset hnodup hdefined).length_le
  rw [Context.extend, List.length_append, List.length_map] at hle
  have hsize : T.entries.length ≤ depthLimit := hsize
  simp only [List.length_cons, List.length_nil] at hle
  omega

theorem fault_ne_nestedTooDeeply (hT : ∀ m ∈ T.entries, m.functionLike = false)
    (hsize : T.size ≤ depthLimit) {ts : List Token} {e : Error}
    (h : ((start ts).output T keep).error = some e) (limit : Nat) (name : Text) :
    e.fault ≠ .nestedTooDeeply limit name := by
  rcases exists_origin h with ⟨s, rest, hr, hs⟩ | ⟨m, args, hs⟩
  · have hsound := (sound_start ts).of_reaches hr
    have hlen := length_context_of_reaches hT rfl hr
    obtain ⟨depth, ctx, input⟩ := s
    cases input with
    | nil => cases hs
    | cons t us =>
        have hcase := step_cases T keep depth ctx t us
        rw [show Expansion.step _ _ _ _ _ = _ from hs] at hcase
        generalize hst : Step.stop (.fault e) rest = st at hcase
        cases hcase with
        | pass | operand | object => cases hst
        | variadic =>
            cases hst
            rintro ⟨⟩
        | tooDeep hm hctx hl =>
            have hlt := hsound.not_tooDeep hlen hsize (Table.mem_of_lookup hm)
              (by rwa [Table.name_of_lookup hm])
            exact absurd hlt (Nat.not_lt.2 hl)
        | function hm _ _ ht _ =>
            simp [Table.isFunctionName, hm, hT _ (Table.mem_of_lookup hm)] at ht
  · obtain ⟨l, r, hf⟩ := Substitution.fault_of_substitute hs
    rw [hf]
    rintro ⟨⟩

end Scan

/-- Expansion ends: no chain of scans is endless, and its recursive equation has the expansion as
its only solution. No scan is below the deepest level or has a context with a name twice; and
with object-like macros only, as many as there are levels at most, the levels suffice. -/
theorem ends_on_permitted_levels (T : Table) :
    (∀ ts, expand T ts = (Scan.start ts).output T false ∧
      expandKeepingDefined T ts = (Scan.start ts).output T true) ∧
    (∀ keep, (WellFounded fun s' s => Scan.Leads T keep s s') ∧
      ∀ f : Scan → Output, (∀ s, f s = s.outputFrom T keep f) ↔ f = Scan.output T keep) ∧
    (∀ keep ts s, ReflTransGen (Scan.Leads T keep) (Scan.start ts) s →
      s.depth ≤ 256 ∧ s.context.Nodup) ∧
    ((∀ m ∈ T.entries, m.functionLike = false) → T.size ≤ 256 →
      ∀ ts e, (expand T ts).error = some e →
        ∀ limit name, e.fault ≠ .nestedTooDeeply limit name) := by
  refine ⟨fun ts => ⟨rfl, rfl⟩, fun keep => ⟨Scan.wellFounded_leads T keep,
    fun f => ⟨?_, ?_⟩⟩, ?_, ?_⟩
  · intro hf
    funext s
    exact Scan.eq_output_of_outputFrom hf s
  · rintro rfl s
    exact s.output_eq
  · intro keep ts s hr
    have hsound := (Scan.sound_start ts).of_reaches hr
    exact ⟨hsound.depth_le, hsound.nodup⟩
  · intro hT hsize ts e (h : ((Scan.start ts).output T false).error = some e)
    exact Scan.fault_ne_nestedTooDeeply hT hsize h

/-- Two macros that stand for each other, and one that stands for itself. -/
def Sample.circular : Table :=
  ⟨[{ name := ascii "a", body := [{ kind := .identifier, text := ascii "b" }] },
    { name := ascii "b", body := [{ kind := .identifier, text := ascii "a" }] },
    { name := ascii "c", body := [{ kind := .identifier, text := ascii "c" }] }]⟩

theorem circular_ends_on_permitted_levels :
    (∀ m ∈ Sample.circular.entries, m.functionLike = false) ∧ Sample.circular.size ≤ 256 ∧
      ∀ ts e, (expand Sample.circular ts).error = some e →
        ∀ limit name, e.fault ≠ .nestedTooDeeply limit name := by
  have hobject : ∀ m ∈ Sample.circular.entries, m.functionLike = false := by decide
  have hsize : Sample.circular.size ≤ 256 := by decide
  exact ⟨hobject, hsize, (ends_on_permitted_levels Sample.circular).2.2.2 hobject hsize⟩

end Expansion
end CPreprocessor

import CPreprocessor.Lexer.Cut
import CPreprocessor.TokenStream.Source

/-!
Computations that may fail: what a sequence of them gives, and what is left of an outcome when
the error is forgotten, or everything about the error but its kind. Errors may all be of one kind,
or all stand at places of their source.
-/

namespace CPreprocessor

/-- A sequence of two computations succeeds if both do. -/
theorem except_bind_eq_ok {ε α β : Type} {x : Except ε α} {f : α → Except ε β} {b : β}
    (h : (x >>= f) = .ok b) : ∃ a, x = .ok a ∧ f a = .ok b := by
  cases x with
  | error e => cases h
  | ok a => exact ⟨a, rfl, h⟩

@[simp] theorem except_ok_bind {ε α β : Type} (a : α) (f : α → Except ε β) :
    ((Except.ok a : Except ε α) >>= f) = f a :=
  rfl

@[simp] theorem except_error_bind {ε α β : Type} (e : ε) (f : α → Except ε β) :
    ((Except.error e : Except ε α) >>= f) = .error e :=
  rfl

theorem except_map_map {ε α β γ : Type} (f : α → β) (g : β → γ) (x : Except ε α) :
    (x.map f).map g = x.map (g ∘ f) := by
  cases x <;> rfl

theorem toOption_bind {ε α β : Type} (x : Except ε α) (f : α → Except ε β) :
    (x >>= f).toOption = x.toOption.bind fun a => (f a).toOption := by
  cases x <;> rfl

theorem toOption_map {ε α β : Type} (f : α → β) (x : Except ε α) :
    (x.map f).toOption = x.toOption.map f := by
  cases x <;> rfl

theorem toOption_map_eq_none {ε α β : Type} {x : Except ε α} (h : x.toOption = none)
    (f : α → β) :
    (x.map f).toOption = none := by
  rw [toOption_map, h]
  rfl

theorem except_eq_ok_of_toOption {ε α : Type} {x : Except ε α} {a : α}
    (h : x.toOption = some a) :
    x = .ok a := by
  cases x with
  | error e => cases h
  | ok b => exact congrArg Except.ok (Option.some.inj h)

def Error.kind (e : Error) : FaultKind :=
  e.fault.kind

@[simp] theorem Error.kind_mk (fault : Fault) (pos : Pos) (file : Text) :
    Error.kind ⟨fault, pos, file⟩ = fault.kind :=
  rfl

theorem Error.kind_inFile (name : Text) (e : Error) : (e.inFile name).kind = e.kind := by
  unfold inFile
  split <;> rfl

theorem Error.kind_orAt (pos : Pos) (e : Error) : (e.orAt pos).kind = e.kind := by
  unfold orAt
  split <;> rfl

/-- The outcome with nothing of the error but its kind. -/
def verdict {α : Type} : Except Error α → Except FaultKind α
  | .ok a => .ok a
  | .error e => .error e.kind

section Verdict

variable {α β : Type} {x : Except Error α}

@[simp] theorem verdict_ok (a : α) : verdict (.ok a) = .ok a :=
  rfl

@[simp] theorem verdict_error (e : Error) : verdict (.error e : Except Error α) = .error e.kind :=
  rfl

theorem verdict_bind (x : Except Error α) (f : α → Except Error β) :
    verdict (x >>= f) = verdict x >>= fun a => verdict (f a) := by
  cases x <;> rfl

theorem verdict_map (f : α → β) (x : Except Error α) :
    verdict (x.map f) = (verdict x).map f := by
  cases x <;> rfl

theorem verdict_eq_ok {a : α} : verdict x = .ok a ↔ x = .ok a := by
  cases x <;> simp

theorem verdict_eq_error {k : FaultKind} :
    verdict x = .error k ↔ ∃ e, x = .error e ∧ e.kind = k := by
  cases x <;> simp

/-- Outcomes that agree up to `f` and `g` are both values or both errors. -/
theorem of_verdict_map_eq {γ : Type} {y : Except Error β} {f : α → γ} {g : β → γ}
    (h : (verdict x).map f = (verdict y).map g) :
    (∃ a b, x = .ok a ∧ y = .ok b ∧ f a = g b) ∨
      ∃ e e', x = .error e ∧ y = .error e' ∧ e.kind = e'.kind := by
  cases x with
  | error e =>
      cases y with
      | error e' => exact .inr ⟨e, e', rfl, rfl, Except.error.inj h⟩
      | ok b => cases h
  | ok a =>
      cases y with
      | error e' => cases h
      | ok b => exact .inl ⟨a, b, rfl, rfl, Except.ok.inj h⟩

theorem ok_of_verdict_map_eq {γ : Type} {y : Except Error β} {f : α → γ}
    {g : β → γ} {a : α} (h : (verdict (.ok a)).map f = (verdict y).map g) :
    ∃ b, y = .ok b ∧ f a = g b := by
  rcases of_verdict_map_eq h with ⟨_, b, ha, hb, hfg⟩ | ⟨_, _, ha, _⟩
  · cases ha
    exact ⟨b, hb, hfg⟩
  · cases ha

theorem error_of_verdict_map_eq {γ : Type} {y : Except Error β} {f : α → γ}
    {g : β → γ} {e : Error} (h : (verdict (.error e)).map f = (verdict y).map g) :
    ∃ e', y = .error e' ∧ e.kind = e'.kind := by
  rcases of_verdict_map_eq h with ⟨_, _, he, _⟩ | ⟨_, e', he, he', hk⟩
  · cases he
  · cases he
    exact ⟨e', he', hk⟩

end Verdict

/-- The error stands at a position of `S` and has no file yet. Only where the input ends instead
of a name there may be no position. -/
structure Error.Located (S : Pos → Prop) (e : Error) : Prop where
  file : e.file = []
  pos : S e.pos ∨ e.fault = .expectedIdentifier none ∧ e.pos = {}

theorem Error.Located.here {S : Pos → Prop} {pos : Pos} (h : S pos) (fault : Fault) :
    Error.Located S { fault, pos } :=
  ⟨rfl, .inl h⟩

theorem Error.Located.orAt {S : Pos → Prop} {e : Error} (h : e.Located S) {pos : Pos}
    (hpos : S pos) : (e.orAt pos).Located S := by
  unfold Error.orAt
  split
  · exact h
  · exact ⟨h.file, .inl hpos⟩

/-- An error of the kind `k` that stands at a position of `S`. -/
structure Error.KindAt (k : FaultKind) (S : Pos → Prop) (e : Error) : Prop where
  kind : e.kind = k
  located : e.Located S

theorem Error.KindAt.here {k : FaultKind} {S : Pos → Prop} {pos : Pos} (h : S pos) {fault : Fault}
    (hk : fault.kind = k) : Error.KindAt k S { fault, pos } :=
  ⟨hk, .here h fault⟩

/-- Every error of the computation has the property. -/
def FailsIn {α : Type} (F : Error → Prop) (x : Except Error α) : Prop :=
  ∀ e, x = .error e → F e

namespace FailsIn

variable {α β : Type} {F G : Error → Prop}

theorem ok (a : α) : FailsIn F (.ok a) := by
  rintro e ⟨⟩

theorem error {e : Error} (h : F e) : FailsIn F (.error e : Except Error α) := by
  rintro _ ⟨⟩
  exact h

theorem bind {x : Except Error α} {f : α → Except Error β} (hx : FailsIn F x)
    (hf : ∀ a, x = .ok a → FailsIn F (f a)) : FailsIn F (x >>= f) := by
  cases x with
  | error e => exact error (hx e rfl)
  | ok a => exact hf a rfl

theorem map {x : Except Error α} (hx : FailsIn F x) (f : α → β) : FailsIn F (x.map f) := by
  cases x with
  | error e => exact error (hx e rfl)
  | ok a => exact ok (f a)

end FailsIn

/-- Every error of the computation is of the kind `k`. -/
def FailsAs {α : Type} (k : FaultKind) (x : Except Error α) : Prop :=
  ∀ e, x = .error e → e.kind = k

namespace FailsAs

variable {α β : Type} {k : FaultKind}

theorem ok (a : α) : FailsAs k (.ok a) :=
  FailsIn.ok a

theorem error {e : Error} (h : e.kind = k) : FailsAs k (.error e : Except Error α) :=
  FailsIn.error (F := fun e => e.kind = k) h

theorem bind {x : Except Error α} {f : α → Except Error β} (hx : FailsAs k x)
    (hf : ∀ a, FailsAs k (f a)) : FailsAs k (x >>= f) :=
  FailsIn.bind hx fun a _ => hf a

theorem map {x : Except Error α} (hx : FailsAs k x) (f : α → β) : FailsAs k (x.map f) :=
  FailsIn.map hx f

end FailsAs

/-- No error of the computation is of the kind `k`. -/
def Avoids {α : Type} (k : FaultKind) (x : Except Error α) : Prop :=
  ∀ e, x = .error e → e.kind ≠ k

namespace Avoids

variable {α β : Type} {k : FaultKind}

theorem ok (a : α) : Avoids k (.ok a) :=
  FailsIn.ok a

theorem error {e : Error} (h : e.kind ≠ k) : Avoids k (.error e : Except Error α) :=
  FailsIn.error (F := fun e => e.kind ≠ k) h

theorem of_failsAs {k' : FaultKind} {x : Except Error α} (hx : FailsAs k' x) (hk : k' ≠ k) :
    Avoids k x :=
  fun e he h => hk ((hx e he).symm.trans h)

theorem bind {x : Except Error α} {f : α → Except Error β} (hx : Avoids k x)
    (hf : ∀ a, x = .ok a → Avoids k (f a)) : Avoids k (x >>= f) :=
  FailsIn.bind hx hf

theorem map {x : Except Error α} (hx : Avoids k x) (f : α → β) : Avoids k (x.map f) :=
  FailsIn.map hx f

/-- The first part of a sequence that fails with a kind that it avoids has succeeded. -/
theorem exists_ok {x : Except Error α} {f : α → Except Error β} {e : Error} (hx : Avoids k x)
    (h : (x >>= f) = .error e) (hk : e.kind = k) : ∃ a, x = .ok a ∧ f a = .error e := by
  cases x with
  | error e' =>
      cases h
      exact absurd hk (hx e rfl)
  | ok a => exact ⟨a, rfl, h⟩

end Avoids

namespace End

/-- Ends without an error, or with errors of one kind. -/
def Akin (e f : End) : Prop :=
  e.error?.map Error.kind = f.error?.map Error.kind

namespace Akin

variable {e f : End}

theorem refl (e : End) : Akin e e :=
  Eq.refl _

theorem symm (h : Akin e f) : Akin f e :=
  Eq.symm h

theorem fault {a b : Error} (h : a.kind = b.kind) : Akin (.fault a) (.fault b) :=
  congrArg some h

theorem of_eof (h : Akin .eof f) : f = .eof := by
  cases f with
  | eof => rfl
  | fault b => cases h

theorem of_fault {a : Error} (h : Akin (.fault a) f) : ∃ b, f = .fault b ∧ a.kind = b.kind := by
  cases f with
  | eof => cases h
  | fault b => exact ⟨b, rfl, Option.some.inj h⟩

end Akin
end End
end CPreprocessor

import CPreprocessor.Condition
import CPreprocessor.Proofs.Outcome

/-!
How the evaluation of an expression fails. Every error is one of evaluation, and it stands at a
token of the expression or where the expression stops. A part of an expression leaves tokens of
the expression, so the errors of the parts behind it are covered too.
-/

namespace CPreprocessor

variable {P : Error → Prop} {S : Pos → Prop}

/-- Every error of evaluation at a position of `S` has the property `P`. -/
def AllEvaluation (P : Error → Prop) (S : Pos → Prop) : Prop :=
  ∀ fault pos, fault.kind = .evaluation → S pos → P { fault, pos }

theorem AllEvaluation.kind : AllEvaluation (fun e => e.kind = .evaluation) fun _ => True :=
  fun _ _ h _ => h

/-- The errors of a computation have the property `P`, and the tokens it leaves stand at
positions of `S`. -/
structure Leaves {α : Type} (P : Error → Prop) (S : Pos → Prop) (rest : α → List Token)
    (x : Except Error α) : Prop where
  fails : FailsIn P x
  rest : ∀ {a}, x = .ok a → ∀ t ∈ rest a, S t.pos

namespace Leaves

variable {α β : Type} {r : α → List Token} {r' : β → List Token}

theorem ok {a : α} (h : ∀ t ∈ r a, S t.pos) : Leaves P S r (.ok a) := by
  refine ⟨.ok a, ?_⟩
  rintro _ ⟨⟩
  exact h

theorem error {e : Error} (h : P e) : Leaves P S r (.error e) :=
  ⟨.error h, nofun⟩

theorem bind {x : Except Error α} {f : α → Except Error β} (hx : Leaves P S r x)
    (hf : ∀ a, (∀ t ∈ r a, S t.pos) → Leaves P S r' (f a)) : Leaves P S r' (x >>= f) := by
  cases x with
  | error e => exact error (hx.fails e rfl)
  | ok a => exact hf a (hx.rest rfl)

theorem map {x : Except Error α} (hx : Leaves P S r x) {f : α → β}
    (hf : ∀ a, (∀ t ∈ r a, S t.pos) → ∀ t ∈ r' (f a), S t.pos) :
    Leaves P S r' (x.map f) := by
  cases x with
  | error e => exact error (hx.fails e rfl)
  | ok a => exact ok (hf a (hx.rest rfl))

theorem of_failsIn {x : Except Error α} (h : FailsIn P x) : Leaves P S (fun _ => []) x :=
  ⟨h, fun _ _ ht => nomatch ht⟩

end Leaves

theorem Value.failsIn_apply (hP : AllEvaluation P S) {pos : Pos} (h : S pos) (op : BinaryOp)
    (live : Bool) (l r : Value) : FailsIn P (l.apply op live pos r) := by
  have hshift (left : Bool) : FailsIn P (shift left live pos l r) := by
    unfold shift
    split
    · split
      · exact .error (hP _ _ rfl h)
      · exact .ok _
    · split <;> exact .ok _
  cases op with
  | shl => exact hshift true
  | shr => exact hshift false
  | div | rem =>
      simp only [apply]
      split
      · exact .ok _
      · split
        · exact .error (hP _ _ rfl h)
        · exact .ok _
  | _ => exact .ok _

theorem Constant.failsIn_number (hP : AllEvaluation P S) {t : Token} (h : S t.pos) :
    FailsIn P (number t) := by
  unfold number
  simp only
  repeat' split
  all_goals first | exact .ok _ | exact .error (hP _ _ rfl h)

theorem Constant.failsIn_character (hP : AllEvaluation P S) {t : Token} (h : S t.pos) :
    FailsIn P (character t) := by
  unfold character
  simp only
  repeat' split
  all_goals first | exact .ok _ | exact .error (hP _ _ rfl h)

theorem Constant.failsAs_number (t : Token) : FailsAs .evaluation (number t) :=
  failsIn_number .kind trivial

namespace Expression

theorem leaves_nameOperand (hP : AllEvaluation P S) (T : Table) {pos : Pos} (hpos : S pos)
    {ts : List Token} (h : ∀ t ∈ ts, S t.pos) : Leaves P S Prod.snd (nameOperand T pos ts) := by
  have hdrop {us rest : List Token} {t : Token} (hus : ∀ t ∈ us, S t.pos)
      (hd : us.dropWhile Token.isSpace = t :: rest) : ∀ u ∈ rest, S u.pos := by
    have hsuffix := List.dropWhile_suffix (l := us) Token.isSpace
    rw [hd] at hsuffix
    exact fun u hu => hus u (hsuffix.subset (List.mem_cons_of_mem t hu))
  unfold nameOperand
  simp only
  split
  · exact .error (hP _ _ rfl hpos)
  · rename_i h₁
    have h₁ := hdrop h h₁
    split
    · split
      · exact .error (hP _ _ rfl hpos)
      · rename_i h₂
        have h₂ := hdrop h₁ h₂
        split
        · exact .error (hP _ _ rfl hpos)
        · split
          · exact .error (hP _ _ rfl hpos)
          · rename_i h₃
            have h₃ := hdrop h₂ h₃
            split
            · exact .ok h₃
            · exact .error (hP _ _ rfl hpos)
    · split
      · exact .ok h₁
      · exact .error (hP _ _ rfl hpos)

variable {env : Env}

theorem leaves_expect (hP : AllEvaluation P S) (hstop : S env.stop) (c : Closer)
    {ts : List Token} (h : ∀ t ∈ ts, S t.pos) : Leaves P S Subtype.val (expect env c ts) := by
  unfold expect
  split
  · exact .error (hP _ _ rfl hstop)
  · obtain ⟨ht, hrest⟩ := List.forall_mem_cons.1 h
    split
    · exact .ok hrest
    · exact .error (hP _ _ rfl ht)

mutual

theorem leaves_comma (hP : AllEvaluation P S) (hstop : S env.stop) (live : Bool)
    (ts : List Token) (h : ∀ t ∈ ts, S t.pos) :
    Leaves P S (fun a => a.2.1) (comma env live ts) := by
  rw [comma]
  refine (leaves_conditional hP hstop live ts h).bind fun ⟨v, rest, hlt⟩ hrest => ?_
  exact (leaves_commaTail hP hstop live v rest hrest).bind fun _ hrest' => .ok hrest'
termination_by (ts.length, 3)

theorem leaves_commaTail (hP : AllEvaluation P S) (hstop : S env.stop) (live : Bool)
    (v : Value) (ts : List Token) (h : ∀ t ∈ ts, S t.pos) :
    Leaves P S (fun a => a.2.1) (commaTail env live v ts) := by
  rw [commaTail.eq_def]
  split
  · exact .ok h
  · rename_i t rest
    obtain ⟨-, hrest⟩ := List.forall_mem_cons.1 h
    split
    · refine (leaves_conditional hP hstop live rest hrest).bind
        fun ⟨v, rest', hlt⟩ hrest' => ?_
      exact (leaves_commaTail hP hstop live v rest' hrest').bind fun _ hrest'' => .ok hrest''
    · exact .ok h
termination_by (ts.length, 0)
decreasing_by
  all_goals
    subst_vars
    exact Prod.Lex.left _ _ (by simp only [List.length_cons]; omega)

theorem leaves_conditional (hP : AllEvaluation P S) (hstop : S env.stop) (live : Bool)
    (ts : List Token) (h : ∀ t ∈ ts, S t.pos) :
    Leaves P S (fun a => a.2.1) (conditional env live ts) := by
  rw [conditional]
  refine (leaves_binary hP hstop live 1 ts h).bind fun ⟨c, rest, hlt⟩ hrest => ?_
  cases rest with
  | nil => exact .ok hrest
  | cons q rest =>
      obtain ⟨-, hrest₁⟩ := List.forall_mem_cons.1 hrest
      have h₁ : rest.length < ts.length := Nat.lt_of_succ_lt hlt
      simp only
      split
      · refine (leaves_comma hP hstop _ rest hrest₁).bind
          fun ⟨t, rest₂, h₂⟩ hrest₂ => ?_
        refine (leaves_expect hP hstop _ hrest₂).bind fun ⟨rest₃, h₃⟩ hrest₃ => ?_
        have h₄ : rest₃.length < ts.length := Nat.lt_trans h₃ (Nat.lt_trans h₂ h₁)
        exact (leaves_conditional hP hstop _ rest₃ hrest₃).bind fun _ hrest₄ => .ok hrest₄
      · exact .ok hrest
termination_by (ts.length, 2)
decreasing_by
  · exact Prod.Lex.right _ (by omega)
  · exact Prod.Lex.left _ _ h₁
  · exact Prod.Lex.left _ _ h₄

theorem leaves_binary (hP : AllEvaluation P S) (hstop : S env.stop) (live : Bool)
    (min : Nat) (ts : List Token) (h : ∀ t ∈ ts, S t.pos) :
    Leaves P S (fun a => a.2.1) (binary env live min ts) := by
  rw [binary]
  refine (leaves_unary hP hstop live ts h).bind fun ⟨l, rest, hlt⟩ hrest => ?_
  exact (leaves_climb hP hstop live min l rest hrest).bind fun _ hrest' => .ok hrest'
termination_by (ts.length, 1)

theorem leaves_climb (hP : AllEvaluation P S) (hstop : S env.stop) (live : Bool)
    (min : Nat) (l : Value) (ts : List Token) (h : ∀ t ∈ ts, S t.pos) :
    Leaves P S (fun a => a.2.1) (climb env live min l ts) := by
  rw [climb.eq_def]
  split
  · exact .ok h
  · rename_i t rest
    obtain ⟨ht, hrest⟩ := List.forall_mem_cons.1 h
    split
    · exact .ok h
    · split
      · exact .ok h
      · refine (leaves_binary hP hstop _ _ rest hrest).bind fun ⟨r, rest', hlt⟩ hrest' => ?_
        refine (Leaves.of_failsIn (Value.failsIn_apply hP ht _ live l r)).bind fun v _ => ?_
        exact (leaves_climb hP hstop live min v rest' hrest').bind fun _ hrest'' => .ok hrest''
termination_by (ts.length, 0)
decreasing_by
  all_goals
    subst_vars
    exact Prod.Lex.left _ _ (by simp only [List.length_cons]; omega)

theorem leaves_unary (hP : AllEvaluation P S) (hstop : S env.stop) (live : Bool)
    (ts : List Token) (h : ∀ t ∈ ts, S t.pos) :
    Leaves P S (fun a => a.2.1) (unary env live ts) := by
  rw [unary.eq_def]
  split
  · exact .error (hP _ _ rfl hstop)
  · rename_i t rest
    obtain ⟨-, hrest⟩ := List.forall_mem_cons.1 h
    split
    · exact (leaves_unary hP hstop live rest hrest).bind fun _ hrest' => .ok hrest'
    · exact leaves_primary hP hstop live t rest h
termination_by (ts.length, 0)
decreasing_by
  all_goals
    subst_vars
    exact Prod.Lex.left _ _ (by simp only [List.length_cons]; omega)

theorem leaves_primary (hP : AllEvaluation P S) (hstop : S env.stop) (live : Bool)
    (t : Token) (ts : List Token) (h : ∀ u ∈ t :: ts, S u.pos) :
    Leaves P S (fun a => a.2.1) (primary env live t ts) := by
  obtain ⟨ht, hts⟩ := List.forall_mem_cons.1 h
  rw [primary.eq_def]
  split
  · exact (Leaves.of_failsIn (Constant.failsIn_number hP ht)).bind fun _ _ => .ok hts
  · exact (Leaves.of_failsIn (Constant.failsIn_character hP ht)).bind fun _ _ => .ok hts
  · split
    · exact .error (hP _ _ rfl ht)
    · split
      · exact .ok hts
      · split
        · have hoperand := leaves_nameOperand hP env.table ht hts
          split
          · rename_i he
            exact .error (hoperand.fails _ he)
          · rename_i hok
            exact .ok (hoperand.rest hok)
        · exact .ok hts
  · split
    · refine (leaves_comma hP hstop live ts hts).bind fun ⟨v, rest, hlt⟩ hrest => ?_
      exact (leaves_expect hP hstop _ hrest).bind fun _ hrest' => .ok hrest'
    · exact .error (hP _ _ rfl ht)
  · exact .error (hP _ _ rfl ht)
termination_by (ts.length, 4)

end

/-- Whatever is wrong with an expression, the error is one of evaluation, at one of its tokens
or where it stops. -/
theorem failsIn_evaluate (hP : AllEvaluation P S) (hstop : S env.stop) {ts : List Token}
    (h : ∀ t ∈ ts, S t.pos) : FailsIn P (evaluate env ts) := by
  have hall : Leaves P S (fun _ => []) (evaluate env ts) := by
    refine (leaves_comma hP hstop true ts h).bind fun ⟨v, rest, hlt⟩ hrest => ?_
    cases rest with
    | nil => exact .ok nofun
    | cons t rest => exact .error (hP _ _ rfl (hrest t List.mem_cons_self))
  exact hall.fails

theorem failsAs_evaluate (env : Env) (ts : List Token) : FailsAs .evaluation (evaluate env ts) :=
  failsIn_evaluate .kind trivial fun _ _ => trivial

end Expression

namespace Condition

theorem leaves_replaceDefined (hP : AllEvaluation P S) (T : Table) {ts : List Token}
    (h : ∀ t ∈ ts, S t.pos) : Leaves P S id (replaceDefined T ts) := by
  fun_induction replaceDefined T ts with
  | case1 => exact .ok h
  | case2 t rest _ e he =>
      obtain ⟨ht, hrest⟩ := List.forall_mem_cons.1 h
      exact .error ((Expression.leaves_nameOperand hP T ht hrest).fails e he)
  | case3 t rest _ b rest' hr ih =>
      obtain ⟨ht, hrest⟩ := List.forall_mem_cons.1 h
      exact (ih ((Expression.leaves_nameOperand hP T ht hrest).rest hr)).map fun _ hus =>
        List.forall_mem_cons.2 ⟨ht, hus⟩
  | case4 t rest _ ih =>
      obtain ⟨ht, hrest⟩ := List.forall_mem_cons.1 h
      exact (ih hrest).map fun _ hus => List.forall_mem_cons.2 ⟨ht, hus⟩

theorem failsAs_replaceDefined (T : Table) (ts : List Token) :
    FailsAs .evaluation (replaceDefined T ts) :=
  (leaves_replaceDefined .kind T fun _ _ => trivial).fails

end Condition
end CPreprocessor

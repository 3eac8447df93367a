import SymExec.Error

/-!
# What a computation does to its state

A computation ends with a result or a failure, and in either case with a state. `Run.Keeps R act`
says that `R` relates the state before `act` to the one after it, however it ends. If `R` is
reflexive and transitive, that follows from the parts of a computation: the lemmas for the parts
are tagged, so that the fact for a `do` block follows from those for its steps. Likewise, `Fails P act`
says that `P` holds of whatever a check fails with (`Fails.bind`, `Fails.mapM`).
-/
namespace SymExec

/-! ## Checks that fail -/

/-- Every failure of a computation has a property. -/
def Fails {ε α : Type} (P : ε → Prop) (act : Except ε α) : Prop := ∀ e, act = .error e → P e

namespace Fails

variable {ε α β : Type} {P : ε → Prop}
variable {xs : List α} {act : Except ε α}

theorem pure (a : α) : Fails P (pure a : Except ε α) := fun _ h => nomatch h

theorem ok (a : α) : Fails P (.ok a : Except ε α) := fun _ h => nomatch h

theorem error {e : ε} (h : P e) : Fails P (.error e : Except ε α) := by
  rintro _ ⟨⟩
  exact h

theorem bind {k : α → Except ε β} (hact : Fails P act) (hk : ∀ a, act = .ok a → Fails P (k a)) :
    Fails P (act >>= k) := by
  intro e h
  cases hend : act with
  | error e' =>
    rw [hend] at h
    cases h
    exact hact _ hend
  | ok a =>
    rw [hend] at h
    exact hk a hend e h

/-- What is made of a result adds no failure. -/
theorem bindPure {f : α → β} (hact : Fails P act) :
    Fails P (act >>= fun a => Pure.pure (f a)) := .bind hact fun _ _ => .pure _

theorem mapM {f : α → Except ε β} (h : ∀ x ∈ xs, Fails P (f x)) : Fails P (xs.mapM f) := by
  induction xs with
  | nil => exact .pure _
  | cons x xs ih =>
    rw [List.mapM_cons]
    exact .bind (h x (by simp)) fun y _ => .bindPure (ih fun x' hx' => h x' (by simp [hx']))

theorem forM {f : α → Except ε Unit} (h : ∀ x ∈ xs, Fails P (f x)) : Fails P (xs.forM f) := by
  induction xs with
  | nil => exact .pure _
  | cons x xs ih => exact .bind (h x (by simp)) fun _ _ => ih fun x' hx' => h x' (by simp [hx'])

theorem forIn {f : α → β → Except ε (ForInStep β)} (h : ∀ x ∈ xs, ∀ b, Fails P (f x b)) (b : β) :
    Fails P (forIn xs b f) := by
  induction xs generalizing b with
  | nil => exact .pure _
  | cons x xs ih =>
    rw [List.forIn_cons]
    refine .bind (h x (by simp) b) fun step _ => ?_
    cases step with
    | done b' => exact .pure _
    | yield b' => exact ih (fun x' hx' => h x' (by simp [hx'])) b'

end Fails

namespace Run

variable {σ α β : Type}
variable {s s' : σ} {a : α} {b : β} {act : Run σ α} {f : α → Run σ β} {e : Except EvalError α}
  {ε : Type} {p : Prop} {xs : List α} {check : Run σ Unit} {rest : Unit → Run σ α}

/-- A sequence of checks passes if each of them does. -/
theorem bind_iff {e : Except ε α} {f : α → Except ε β} :
    (e >>= f) = .ok b ↔ ∃ a, e = .ok a ∧ f a = .ok b := by
  cases e <;> simp [bind, Except.bind]

/-- A sequence of checks fails if one of them does. -/
theorem except_bind_eq_error {e : Except ε α} {f : α → Except ε β} {c : ε} :
    (e >>= f) = .error c ↔ e = .error c ∨ ∃ a, e = .ok a ∧ f a = .error c := by
  cases e <;> simp [bind, Except.bind]

theorem lift_eq_ok : EvalError.lift e = .ok a ↔ e = .ok a := by
  cases e <;> simp [EvalError.lift]

/-- The state that a computation ends in. -/
def final (act : Run σ α) (s : σ) : σ :=
  match act s with
  | .ok _ s => s
  | .error _ s => s

theorem final_of_ok (h : act s = .ok a s') : act.final s = s' := by
  simp only [final, h]

theorem final_of_error {e : Failure} (h : act s = .error e s') : act.final s = s' := by
  simp only [final, h]

/-! ## Errors that are written -/

theorem written_eq_ok : Run.written act s = .ok a s' ↔ act s = .ok a s' := by
  unfold written
  cases act s <;> simp

theorem final_written (act : Run σ α) (s : σ) : (Run.written act).final s = act.final s := by
  simp only [final, written]
  cases act s <;> rfl

theorem written_eq_error {c : Failure} :
    Run.written act s = .error c s' ↔ ∃ c', act s = .error c' s' ∧ c'.written = c := by
  unfold written
  cases act s <;> simp
  grind

theorem written_eq_local {c : Failure} {e : EvalError} :
    c.written = .error e ↔ c = .error e ∧ e.fault? = none := by
  unfold Failure.written
  split
  · rename_i e'
    cases hfault : e'.fault? with
    | none => grind
    | some fault => cases fault <;> simp [Unwritable.failure] <;> grind
  · grind

/-! ## Single steps -/

theorem getThe_apply (s : σ) : (getThe σ : Run σ σ) s = .ok s s := rfl

theorem failReporting_apply (numbers : List Int) (e : EvalError) (s : σ) :
    (Run.failReporting numbers e : Run σ α) s
      = .error (if numbers.all Text.isPrintableInt then .error e else .numeral .unprintable) s := by
  unfold failReporting
  split <;> rfl

/-! ## Sequences -/

theorem bind_of_ok (h : act s = .ok a s') : (act >>= f) s = f a s' := by
  simp only [bind, EStateM.bind, h]

theorem bind_of_error {e : Failure} (h : act s = .error e s') : (act >>= f) s = .error e s' := by
  simp only [bind, EStateM.bind, h]

theorem modify_apply (f : σ → σ) (s : σ) : (modify f : Run σ Unit) s = .ok () (f s) := rfl

/-- A sequence succeeds if its parts do. -/
theorem bind_eq_ok : (act >>= f) s = .ok b s' ↔ ∃ a s1, act s = .ok a s1 ∧ f a s1 = .ok b s' := by
  cases h : act s with
  | ok a s1 =>
    rw [bind_of_ok h]
    constructor
    · exact fun hf => ⟨a, s1, rfl, hf⟩
    · rintro ⟨_, _, ⟨⟩, hf⟩
      exact hf
  | error e s1 =>
    rw [bind_of_error h]
    constructor
    · rintro ⟨⟩
    · rintro ⟨_, _, ⟨⟩, _⟩

theorem of_eq_ok {e : Except Failure α} : (Run.of e : Run σ α) s = .ok a s' ↔ e = .ok a ∧ s' = s := by
  cases e with
  | ok b =>
    constructor
    · rintro ⟨⟩
      exact ⟨rfl, rfl⟩
    · rintro ⟨⟨⟩, rfl⟩
      rfl
  | error x =>
    constructor
    · rintro ⟨⟩
    · rintro ⟨⟨⟩, _⟩

/-- A check ahead of a computation leaves the state. -/
theorem ofBind_eq_ok {e : Except Failure α} :
    ((liftM e : Run σ α) >>= f) s = .ok b s' ↔ ∃ a, e = .ok a ∧ f a s = .ok b s' := by
  cases e with
  | ok a =>
    constructor
    · exact fun h => ⟨a, rfl, h⟩
    · rintro ⟨_, ⟨⟩, h⟩
      exact h
  | error x =>
    constructor
    · rintro ⟨⟩
    · rintro ⟨_, ⟨⟩, _⟩

theorem liftBind_eq_ok :
    ((liftM e : Run σ α) >>= f) s = .ok b s' ↔ ∃ a, e = .ok a ∧ f a s = .ok b s' := by
  refine (ofBind_eq_ok (e := EvalError.lift e)).trans ?_
  simp only [lift_eq_ok]

theorem length_of_mapM {ys : List β} (h : xs.mapM f s = .ok ys s') : ys.length = xs.length := by
  induction xs generalizing s ys with
  | nil =>
    rw [List.mapM_nil] at h
    cases h
    rfl
  | cons x xs ih =>
    rw [List.mapM_cons] at h
    obtain ⟨y, s1, -, h⟩ := bind_eq_ok.1 h
    obtain ⟨zs, s2, hzs, ⟨⟩⟩ := bind_eq_ok.1 h
    rw [List.length_cons, List.length_cons, ih hzs]

/-! ## Results -/

/-- Every result of a computation satisfies `P`. -/
def Yields (P : α → Prop) (act : Run σ α) : Prop := ∀ s a s', act s = .ok a s' → P a

namespace Yields

variable {P : α → Prop}

@[grind ←] theorem pure {a : α} (h : P a) : Yields P (pure a : Run σ α) := by
  rintro s _ _ ⟨⟩
  exact h

@[grind ←] theorem fail (e : EvalError) : Yields P (Run.fail e : Run σ α) := by
  rintro s _ _ ⟨⟩

@[grind ←] theorem bind {act : Run σ β} {f : β → Run σ α} (hf : ∀ b, Yields P (f b)) :
    Yields P (act >>= f) := by
  intro s a s' h
  obtain ⟨b, s1, -, h⟩ := bind_eq_ok.1 h
  exact hf b s1 a s' h

/-- What a part yields may be used by the rest. -/
theorem chain {Q : β → Prop} {act : Run σ β} {f : β → Run σ α} (hact : Yields Q act)
    (hf : ∀ b, Q b → Yields P (f b)) : Yields P (act >>= f) := by
  intro s a s' h
  obtain ⟨b, s1, hb, h⟩ := bind_eq_ok.1 h
  exact hf b (hact s b s1 hb) s1 a s' h

theorem lift (h : ∀ a, e = .ok a → P a) : Yields P (liftM e : Run σ α) :=
  fun _ a _ hact => h a (lift_eq_ok.1 (of_eq_ok.1 hact).1)

theorem guard [Decidable p] (h : ∀ u, Yields P (rest u)) :
    Yields P (if p then check >>= rest else rest ()) := by
  split
  · exact bind h
  · exact h ()

theorem foldlM {f : α → β → Run σ α} (hf : ∀ a b, P a → Yields P (f a b)) (h : P a) (bs : List β) :
    Yields P (bs.foldlM f a) := by
  induction bs generalizing a with
  | nil => exact pure h
  | cons b bs ih =>
    intro s r s' hr
    rw [List.foldlM_cons] at hr
    obtain ⟨a', s1, ha', hr⟩ := bind_eq_ok.1 hr
    exact ih (hf a b h s a' s1 ha') s1 r s' hr

end Yields

/-- A computation may end with a result. -/
def Returns (act : Run σ α) (a : α) : Prop := ∃ s s', act s = .ok a s'

@[grind →] theorem Returns.lift {e : Except Failure α} (h : Returns (liftM e : Run σ α) a) :
    e = .ok a := by
  obtain ⟨s, s', h⟩ := h
  exact (of_eq_ok.1 h).1

@[grind →] theorem Returns.liftError (h : Returns (liftM e : Run σ α) a) : e = .ok a := by
  obtain ⟨s, s', h⟩ := h
  exact lift_eq_ok.1 (of_eq_ok.1 h).1

/-! ## Changes of the state -/

/-- Changes that add up. -/
structure Composes (R : σ → σ → Prop) : Prop where
  refl (s : σ) : R s s
  trans {s s1 s2 : σ} : R s s1 → R s1 s2 → R s s2

/-- `R` relates the state before a computation to the state after it. -/
def Keeps (R : σ → σ → Prop) (act : Run σ α) : Prop := ∀ s, R s (act.final s)

theorem Keeps.mono {R R' : σ → σ → Prop} (hle : ∀ s s', R s s' → R' s s') (h : Keeps R act) :
    Keeps R' act := fun s => hle _ _ (h s)

theorem Keeps.getBind {R : σ → σ → Prop} {f : σ → Run σ α} (hf : ∀ s, R s ((f s).final s)) :
    Keeps R ((get : Run σ σ) >>= f) := hf

namespace Composes

variable {R : σ → σ → Prop} (hR : Composes R)
include hR

variable {act : Run σ α} {f : α → Run σ β}

theorem bind_final (h : R s (act.final s)) (hf : ∀ a s', act s = .ok a s' → R s' ((f a).final s')) :
    R s ((act >>= f).final s) := by
  cases hact : act s with
  | ok a s1 =>
    rw [final_of_ok hact] at h
    have hrest := hf a s1 hact
    simp only [final, bind_of_ok hact] at hrest ⊢
    exact hR.trans h hrest
  | error e s1 =>
    rw [final_of_error hact] at h
    rwa [final_of_error (bind_of_error hact)]

theorem bind (h : Keeps R act) (hf : ∀ a, Keeps R (f a)) : Keeps R (act >>= f) :=
  fun s => hR.bind_final (h s) fun a s' _ => hf a s'

/-- What follows a result may use that it is one. -/
@[grind ←] theorem bindReturns (h : Keeps R act) (hf : ∀ a, Returns act a → Keeps R (f a)) :
    Keeps R (act >>= f) :=
  fun s => hR.bind_final (h s) fun a s' hact => hf a ⟨s, s', hact⟩ s'

@[grind ←] theorem pure (a : α) : Keeps R (pure a : Run σ α) := hR.refl

@[grind ←] theorem throw (e : Failure) : Keeps R (throw e : Run σ α) := hR.refl

@[grind ←] theorem fail (e : EvalError) : Keeps R (Run.fail e : Run σ α) := hR.refl

@[grind ←] theorem get : Keeps R (get : Run σ σ) := hR.refl

@[grind ←] theorem ofExcept (e : Except Failure α) : Keeps R (Run.of e : Run σ α) := by
  intro s
  cases e <;> exact hR.refl s

@[grind ←] theorem lift (e : Except Failure α) : Keeps R (liftM e : Run σ α) := hR.ofExcept e

@[grind ←] theorem liftError (e : Except EvalError α) : Keeps R (liftM e : Run σ α) :=
  hR.ofExcept (EvalError.lift e)

/-- An alternative of a conditional that is a mere value. -/
@[grind ←] theorem ok (a : α) : Keeps R (EStateM.Result.ok a : Run σ α) := hR.refl

@[grind ←] theorem failReporting (numbers : List Int) (e : EvalError) :
    Keeps R (Run.failReporting numbers e : Run σ α) := by
  unfold Run.failReporting
  grind

/-- What follows a result may use how it came about. -/
theorem liftBind_final {e : Except Failure α} (hf : ∀ a, e = .ok a → R s ((f a).final s)) :
    R s (((liftM e : Run σ α) >>= f).final s) := by
  cases e with
  | ok a => exact hf a rfl
  | error x => exact hR.refl s

theorem liftBind {e : Except Failure α} (hf : ∀ a, e = .ok a → Keeps R (f a)) :
    Keeps R ((liftM e : Run σ α) >>= f) := fun s => hR.liftBind_final fun a ha => hf a ha s

theorem guard [Decidable p] (h : Keeps R check) (hrest : Keeps R (rest ())) :
    Keeps R (if p then check >>= rest else rest ()) := by
  split
  · exact hR.bind h fun _ => hrest
  · exact hrest

@[grind ←] theorem mapM (hf : ∀ a ∈ xs, Keeps R (f a)) : Keeps R (xs.mapM f) := by
  induction xs with
  | nil => simpa using hR.pure []
  | cons x xs ih =>
    rw [List.mapM_cons]
    refine hR.bind (hf x List.mem_cons_self) fun _ => hR.bind ?_ fun _ => hR.pure _
    exact ih fun a ha => hf a (List.mem_cons_of_mem x ha)

@[grind ←] theorem mapOption (hf : ∀ a, Keeps R (f a)) (x : Option α) : Keeps R (x.mapM f) := by
  cases x with
  | none => exact hR.pure none
  | some a => exact hR.bind (hf a) fun _ => hR.pure _

@[grind ←] theorem foldlM {f : β → α → Run σ β} (hf : ∀ b a, Keeps R (f b a)) (b : β)
    (xs : List α) : Keeps R (xs.foldlM f b) := by
  induction xs generalizing b with
  | nil => exact hR.pure b
  | cons x xs ih =>
    rw [List.foldlM_cons]
    exact hR.bind (hf b x) ih

@[grind ←] theorem forIn {f : α → β → Run σ (ForInStep β)} {xs : List α}
    (hf : ∀ a ∈ xs, ∀ b, Keeps R (f a b)) (b : β) : Keeps R (forIn xs b f) := by
  induction xs generalizing b with
  | nil => exact hR.pure b
  | cons x xs ih =>
    rw [List.forIn_cons]
    refine hR.bind (hf x List.mem_cons_self b) fun r => ?_
    cases r with
    | done b => exact hR.pure b
    | yield b => exact ih (fun a ha => hf a (List.mem_cons_of_mem x ha)) b

end Composes
end Run
end SymExec

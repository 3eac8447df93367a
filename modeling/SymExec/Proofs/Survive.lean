import SymExec.Proofs.Raises

/-!
# Computations that do not die

A computation that fails raises an error of the path, or it dies of something else and the whole run
ends with it. `Run.Survives` is a triple for computations that do not die: started where an invariant
holds, they keep it and return with a result as specified, or raise an error of the path. Where the
contract lets a computation die, the triple says what holds if it returns.

A state has a size, which no computation lowers. What is known of a value is known relative to a
size, so it stays known while the state grows.
-/
namespace SymExec

/-- The message of an error can be written, or no step of a resolved program raises the error. -/
def EvalError.Fair (e : EvalError) : Prop := e.fault? = none ∨ e.isLookup = true

def Failure.IsLocal (c : Failure) : Prop := ∃ e, c = .error e ∧ e.Fair

namespace EvalError

variable {e : EvalError}

theorem Fair.of_shown (h : ∀ x ∈ e.shown, x.fault? = none) : e.Fair :=
  .inl (List.findSome?_eq_none_iff.2 h)

theorem Fair.of_printable {value : Json} (h : value.isPrintable) (he : e.shown = [.value value]) :
    e.Fair :=
  .of_shown (by simp [he, Shown.fault?, h])

theorem Fair.of_number {n : Int} (h : Text.isPrintableInt n) (he : e.shown = [.value (.int n)]) :
    e.Fair :=
  .of_printable (by simp only [Json.isPrintable, h]) he

@[grind .] theorem admitsBare_fair : Run.AdmitsBare Fair := fun e _ h => .of_shown (by simp [h])

end EvalError

/-- What computations on a state keep, how large the state is, and whether they may die. -/
structure Contract (σ : Type) where
  invariant : σ → Prop
  size : σ → Nat
  mayDie : Prop

namespace Run

variable {σ α β : Type} {e : Except EvalError α}

/-- A check fails with an error of the path, unless it may die. -/
def Spares (mayDie : Prop) (e : Except Failure α) : Prop := ∀ c, e = .error c → c.IsLocal ∨ mayDie

/-- Started in a state of size `n` or more, a computation keeps the contract, and its results satisfy
`Q` at the size that the state then has. -/
structure Survives (C : Contract σ) (n : Nat) (Q : Nat → α → Prop) (act : Run σ α) : Prop where
  ok {s s' : σ} {a : α} (hs : C.invariant s) (hn : n ≤ C.size s) (h : act s = .ok a s') :
    C.invariant s' ∧ C.size s ≤ C.size s' ∧ Q (C.size s') a
  error {s s' : σ} {c : Failure} (hs : C.invariant s) (hn : n ≤ C.size s) (h : act s = .error c s') :
    c.IsLocal ∨ C.mayDie

/-- A computation keeps the contract; nothing is said of its results. -/
abbrev Lasts (C : Contract σ) (n : Nat) (act : Run σ α) : Prop := Survives C n (fun _ _ => True) act

namespace Spares

variable {D : Prop}

theorem ok (a : α) : Spares D (.ok a : Except Failure α) := by
  rintro c ⟨⟩

theorem error {e : EvalError} (h : e.Fair) : Spares D (.error (.error e) : Except Failure α) := by
  rintro c ⟨⟩
  exact .inl ⟨e, rfl, h⟩

theorem lift (h : Fails EvalError.Fair e) : Spares D (EvalError.lift e) := by
  cases e with
  | ok a => exact ok a
  | error e => exact error (h e rfl)

theorem bind {e : Except Failure α} {f : α → Except Failure β} (h : Spares D e)
    (hf : ∀ a, e = .ok a → Spares D (f a)) : Spares D (e >>= f) := by
  cases he : e with
  | ok a => exact hf a he
  | error c =>
    rintro c' ⟨⟩
    exact h c he

theorem check {f : α → Except Failure β} (h : Fails EvalError.Fair e)
    (hf : ∀ a, e = .ok a → Spares D (f a)) : Spares D ((liftM e : Except Failure α) >>= f) :=
  bind (lift h) fun a ha => hf a (lift_eq_ok.1 ha)

end Spares

namespace Survives

variable {C : Contract σ} {n : Nat} {Q : Nat → α → Prop} {R : Nat → β → Prop}
variable {xs : List α} {act : Run σ α} {f : α → Run σ β} {Q' : Nat → α → Prop}

theorem pure {a : α} (h : ∀ k, n ≤ k → Q k a) : Survives C n Q (pure a : Run σ α) where
  ok hs hn := by
    rintro ⟨⟩
    exact ⟨hs, Nat.le_refl _, h _ hn⟩
  error _ _ := by rintro ⟨⟩

theorem done {a : α} : Lasts C n (Pure.pure a : Run σ α) := pure fun _ _ => trivial

theorem throw {c : Failure} (h : c.IsLocal ∨ C.mayDie) : Survives C n Q (throw c : Run σ α) where
  ok _ _ := by rintro ⟨⟩
  error _ _ := by
    rintro ⟨⟩
    exact h

theorem fail (e : EvalError) (h : e.Fair) : Survives C n Q (Run.fail e : Run σ α) :=
  throw (.inl ⟨e, rfl, h⟩)

theorem failReporting {numbers : List Int} (h : ∀ x ∈ numbers, Text.isPrintableInt x = true)
    {e : EvalError} (he : e.Fair) : Survives C n Q (Run.failReporting numbers e : Run σ α) := by
  unfold Run.failReporting
  rw [if_pos (List.all_eq_true.2 h)]
  exact fail e he

theorem bind (h : Survives C n Q act) (hf : ∀ k, n ≤ k → ∀ a, Q k a → Survives C k R (f a)) :
    Survives C n R (act >>= f) where
  ok hs hn hok := by
    obtain ⟨a, s1, hact, hrest⟩ := bind_eq_ok.1 hok
    obtain ⟨hs1, hle, ha⟩ := h.ok hs hn hact
    obtain ⟨hs', hle', hb⟩ := (hf _ (Nat.le_trans hn hle) a ha).ok hs1 (Nat.le_refl _) hrest
    exact ⟨hs', Nat.le_trans hle hle', hb⟩
  error {s s' c} hs hn herror := by
    cases hact : act s with
    | error c1 s1 =>
      rw [bind_of_error hact] at herror
      cases herror
      exact h.error hs hn hact
    | ok a s1 =>
      rw [bind_of_ok hact] at herror
      obtain ⟨hs1, hle, ha⟩ := h.ok hs hn hact
      exact (hf _ (Nat.le_trans hn hle) a ha).error hs1 (Nat.le_refl _) herror

/-- In a larger state more is known, and less may be asked for. -/
theorem mono {k : Nat} (h : Survives C n Q act) (hk : n ≤ k) (hQ : ∀ i, k ≤ i → ∀ a, Q i a → Q' i a) :
    Survives C k Q' act where
  ok hs hn hok := by
    obtain ⟨hs', hle, ha⟩ := h.ok hs (Nat.le_trans hk hn) hok
    exact ⟨hs', hle, hQ _ (Nat.le_trans hn hle) _ ha⟩
  error hs hn := h.error hs (Nat.le_trans hk hn)

theorem imp (h : Survives C n Q act) (hQ : ∀ k, n ≤ k → ∀ a, Q k a → Q' k a) :
    Survives C n Q' act := h.mono (Nat.le_refl n) hQ

/-- What holds of every result of a computation may be added to what is known. -/
theorem yields {P : α → Prop} (h : Survives C n Q act) (hP : Yields P act) :
    Survives C n (fun k a => Q k a ∧ P a) act where
  ok hs hn hok := by
    obtain ⟨hs', hle, ha⟩ := h.ok hs hn hok
    exact ⟨hs', hle, ha, hP _ _ _ hok⟩
  error := h.error

theorem getBind {f : σ → Run σ β}
    (hf : ∀ s, C.invariant s → n ≤ C.size s → Survives C (C.size s) R (f s)) :
    Survives C n R ((get : Run σ σ) >>= f) where
  ok {s s' b} hs hn (hok : f s s = .ok b s') := (hf s hs hn).ok hs (Nat.le_refl _) hok
  error {s s' c} hs hn (herror : f s s = .error c s') :=
    (hf s hs hn).error hs (Nat.le_refl _) herror

theorem modify {f : σ → σ}
    (h : ∀ s, C.invariant s → n ≤ C.size s → C.invariant (f s) ∧ C.size s ≤ C.size (f s)) :
    Lasts C n (modify f : Run σ Unit) where
  ok hs hn := by
    rintro ⟨⟩
    exact ⟨(h _ hs hn).1, (h _ hs hn).2, trivial⟩
  error _ _ := by rintro ⟨⟩

theorem lift {e : Except Failure α} (he : Spares C.mayDie e)
    (h : ∀ a, e = .ok a → ∀ k, n ≤ k → Q k a) : Survives C n Q (liftM e : Run σ α) := by
  cases hresult : e with
  | ok a => exact pure (h a hresult)
  | error c => exact throw (he c hresult)

theorem liftBind {e : Except Failure α} (he : Spares C.mayDie e)
    (h : ∀ a, e = .ok a → Survives C n R (f a)) : Survives C n R ((liftM e : Run σ α) >>= f) := by
  cases hresult : e with
  | ok a => exact h a hresult
  | error c => exact throw (he c hresult)

theorem liftError (he : Fails EvalError.Fair e) (h : ∀ a, e = .ok a → ∀ k, n ≤ k → Q k a) :
    Survives C n Q (liftM e : Run σ α) :=
  lift (e := EvalError.lift e) (.lift he) fun a ha => h a (lift_eq_ok.1 ha)

theorem check (he : Fails EvalError.Fair e) (h : ∀ a, e = .ok a → Survives C n R (f a)) :
    Survives C n R ((liftM e : Run σ α) >>= f) :=
  liftBind (e := EvalError.lift e) (.lift he) fun a ha => h a (lift_eq_ok.1 ha)

theorem guard {p : Prop} [Decidable p] {check : Run σ Unit} {rest : Unit → Run σ α}
    (hcheck : p → Survives C n (fun _ _ => False) check) (h : ¬ p → Survives C n Q (rest ())) :
    Survives C n Q (if p then check >>= rest else rest ()) := by
  split
  · exact bind (hcheck ‹_›) fun _ _ _ => False.elim
  · exact h ‹_›

theorem mapM (hR : ∀ i j b, i ≤ j → R i b → R j b) (hf : ∀ x ∈ xs, ∀ k, n ≤ k → Survives C k R (f x)) :
    Survives C n (fun k ys => ∀ y ∈ ys, R k y) (xs.mapM f) := by
  induction xs generalizing n with
  | nil => exact pure (by simp)
  | cons x xs ih =>
    rw [List.mapM_cons]
    refine bind (hf x List.mem_cons_self n (Nat.le_refl n)) fun k hk y hy => ?_
    refine bind (ih fun z hz i hi => hf z (List.mem_cons_of_mem x hz) i (Nat.le_trans hk hi))
      fun i hi ys hys => pure fun j hj z hz => ?_
    rcases List.mem_cons.1 hz with rfl | hz
    · exact hR _ _ _ (Nat.le_trans hi hj) hy
    · exact hR _ _ _ hj (hys z hz)

theorem mapOption {x : Option α} (hR : ∀ i j b, i ≤ j → R i b → R j b)
    (hf : ∀ a ∈ x, Survives C n R (f a)) : Survives C n (fun k y => ∀ b ∈ y, R k b) (x.mapM f) := by
  cases x with
  | none => exact pure (by simp)
  | some a =>
    refine bind (hf a rfl) fun k _ b hb => pure fun i hi c hc => ?_
    cases hc
    exact hR _ _ _ hi hb

theorem foldlM {f : β → α → Run σ β} {b : β} (hb : R n b)
    (hf : ∀ x ∈ xs, ∀ k, n ≤ k → ∀ b, R k b → Survives C k R (f b x))
    (hR : ∀ i j b, i ≤ j → R i b → R j b) : Survives C n R (xs.foldlM f b) := by
  induction xs generalizing n b with
  | nil => exact pure fun k hk => hR _ _ _ hk hb
  | cons x xs ih =>
    rw [List.foldlM_cons]
    refine bind (hf x List.mem_cons_self n (Nat.le_refl n) b hb) fun k hk c hc => ?_
    exact ih hc fun y hy i hi => hf y (List.mem_cons_of_mem x hy) i (Nat.le_trans hk hi)

theorem forIn {f : α → PUnit → Run σ (ForInStep PUnit)}
    (hf : ∀ x ∈ xs, ∀ k, n ≤ k → Lasts C k (f x PUnit.unit)) :
    Lasts C n (forIn xs PUnit.unit f) := by
  induction xs generalizing n with
  | nil => exact pure fun _ _ => trivial
  | cons x xs ih =>
    rw [List.forIn_cons]
    refine bind (hf x List.mem_cons_self n (Nat.le_refl n)) fun k hk r _ => ?_
    cases r with
    | done => exact pure fun _ _ => trivial
    | yield =>
      exact ih fun y hy i hi => hf y (List.mem_cons_of_mem x hy) i (Nat.le_trans hk hi)

end Survives
end Run
end SymExec

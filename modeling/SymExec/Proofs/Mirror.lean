import SymExec.Proofs.Coverage
import SymExec.Proofs.Ground

/-!
# Computations on known bytes that mirror those on symbolic bytes

A computation on symbolic bytes is compared with one on the bytes that a valuation gives. If the
first succeeds and the valuation satisfies the store that it ends with, the second succeeds as well,
with the same result and state under the valuation; unless it fails with an error that is excepted,
or the first one met a case that is excepted (`Run.Mirrors`). What mirrors its parts mirrors the
whole (`Mirrors.bind`), so each function needs one lemma about its own steps.
-/
namespace SymExec

open Run

namespace Store

variable {s s' : Store}

/-- What a step without new input bytes does to a store. If there are no symbolic bytes at all, none
are made and nothing is ruled out. -/
structure Develops (s s' : Store) : Prop where
  grows : s.Grows s'
  inputs : s'.inputCount = s.inputCount
  empty : s.size = 0 → s'.size = 0 ∧ ∀ v, s.Models v → s'.Models v

theorem develops_composes : Composes Develops where
  refl s := ⟨grows_composes.refl s, rfl, fun hempty => ⟨hempty, fun _ => id⟩⟩
  trans h h' := by
    refine ⟨grows_composes.trans h.grows h'.grows, h'.inputs.trans h.inputs, fun hempty => ?_⟩
    obtain ⟨hempty', hmodels⟩ := h.empty hempty
    exact ⟨(h'.empty hempty').1, fun v hv => (h'.empty hempty').2 v (hmodels v hv)⟩

theorem develops_derives (h : s.Derives s') : s.Develops s' := by
  induction h with
  | refl => exact develops_composes.refl s
  | tail _ hstep ih =>
    refine develops_composes.trans ih ?_
    have hgrows := grows_derives (.single hstep)
    obtain ⟨n, t, hscope, hvaries⟩ := hstep
    refine ⟨hgrows, by simp, fun hempty => ?_⟩
    -- A term without symbolic bytes is constant.
    refine absurd (fun v => ?_) (hvaries (t.eval fun _ => 0))
    refine Term.eval_congr t fun i hi => ?_
    have := hscope i hi
    omega

theorem develops_push {c : Condition} {list : List Cell} (hc : ∀ i ∈ c.symbols, i < s.size)
    (hlist : ∀ i ∈ Cell.symbols list, i < s.size) (hsymbols : Cell.symbols list ≠ []) :
    s.Develops (s.push c) := by
  refine ⟨grows_push s c hc, rfl, fun hempty => ?_⟩
  obtain ⟨i, rest, hi⟩ := List.exists_cons_of_ne_nil hsymbols
  have := hlist i (by simp [hi])
  omega

/-- Values that satisfy a store satisfy what it was before. -/
theorem Models.of_grows {v : Valuation} (h : s'.Models v) (hg : s.Grows s') : s.Models v := by
  obtain ⟨more, hmore⟩ := hg.segments
  refine ⟨fun d hd => h.1 d ?_, fun c hc => h.2 c (hg.path.subset hc)⟩
  simp only [definitions, ← hmore, placed_append, List.filterMap_append, List.mem_append]
  exact .inl hd

end Store

/-- How states look under values of the symbolic bytes. -/
structure View (σ : Type) where
  values : Valuation
  store : σ → Store
  ground : σ → σ

namespace Run

variable {σ α α' β β' γ : Type}

/-- `act'` does on the states under the values of `V` what `act` does, up to `R` on the results,
unless it fails with an error of `E`, or `D` is the case. -/
def Mirrors (V : View σ) (E : EvalError → Prop) (D : Prop) (R : α → α' → Prop) (act : Run σ α)
    (act' : Run σ α') (m : σ) : Prop :=
  ∀ a m', act m = .ok a m' →
    (V.store m).Develops (V.store m') ∧ (∃ a', R a a') ∧
      ((V.store m').Models V.values →
        (∃ a', R a a' ∧ act' (V.ground m) = .ok a' (V.ground m')) ∨
        (∃ e c, act' (V.ground m) = .error (.error e) c ∧ E e) ∨ D)

/-- Likewise, for computations whose results do not matter. -/
abbrev Shadows (V : View σ) (E : EvalError → Prop) (D : Prop) (act : Run σ α) (act' : Run σ α')
    (m : σ) : Prop := Mirrors V E D (fun _ _ => True) act act' m

namespace Mirrors

variable {V : View σ} {E : EvalError → Prop} {D : Prop} {R : α → α' → Prop} {S : β → β' → Prop}
  {act : Run σ α} {act' : Run σ α'} {m : σ}
variable {f : β → Run σ α}
  {act1 : Run σ α'} {f' : α' → Run σ β'} {e : Except EvalError α} {e' : Except EvalError α'}

theorem pure {a : α} {a' : α'} (h : R a a') :
    Mirrors V E D R (pure a : Run σ α) (pure a' : Run σ α') m := by
  rintro _ _ ⟨⟩
  exact ⟨Store.develops_composes.refl _, ⟨a', h⟩, fun _ => .inl ⟨a', h, rfl⟩⟩

theorem fail (e : EvalError) : Mirrors V E D R (Run.fail e : Run σ α) act' m := by
  rintro _ _ ⟨⟩

theorem throw (e : Failure) : Mirrors V E D R (throw e : Run σ α) act' m := by
  rintro _ _ ⟨⟩

/-- Nothing is asked where the computation on symbolic bytes fails. -/
theorem of_error {e : Failure} {m' : σ} (h : act m = .error e m') :
    Mirrors V E D R act act' m := by
  intro a m1 hok
  rw [h] at hok
  cases hok

/-- It is enough to look at a computation on symbolic bytes that succeeds. -/
theorem of_ok (h : (∃ a m', act m = .ok a m') → Mirrors V E D R act act' m) :
    Mirrors V E D R act act' m :=
  fun a m' hok => h ⟨a, m', hok⟩ a m' hok

/-- It is enough to look at a computation that gives the same results. -/
theorem of_imp {act1 : Run σ α} (h : Mirrors V E D R act1 act' m)
    (himp : ∀ a m', act m = .ok a m' → act1 m = .ok a m') : Mirrors V E D R act act' m :=
  fun a m' hok => h a m' (himp a m' hok)

/-- Another computation that on known bytes does the same, or fails. -/
theorem of_right (h : Mirrors V E D R act act1 m) (hact' : act' (V.ground m) = act1 (V.ground m) ∨
      ∃ e c, act' (V.ground m) = .error (.error e) c ∧ E e) : Mirrors V E D R act act' m := by
  intro a m' hok
  obtain ⟨hstore, hresult, hact⟩ := h a m' hok
  refine ⟨hstore, hresult, fun hv => ?_⟩
  obtain hsame | herror := hact'
  · rw [hsame]
    exact hact hv
  · exact .inr (.inl herror)

/-- In a case that is excepted it does not matter what is done on known bytes. -/
theorem of_excepted (hD : D) (h : Mirrors V E D R act act1 m) : Mirrors V E D R act act' m := by
  intro a m' hok
  obtain ⟨hstore, hresult, -⟩ := h a m' hok
  exact ⟨hstore, hresult, fun _ => .inr (.inr hD)⟩

theorem weaken {D' : Prop} (h : Mirrors V E D R act act' m) (hD : D → D') :
    Mirrors V E D' R act act' m := by
  intro a m' hok
  obtain ⟨hstore, hresult, hact⟩ := h a m' hok
  exact ⟨hstore, hresult, fun hv => (hact hv).imp_right (Or.imp_right hD)⟩

/-- What follows a computation may use that its result is one on known bytes, unless the case is
excepted. -/
theorem bindResult {f : α → Run σ β} (h : Mirrors V E D R act act' m)
    (hf : ∀ a a' m1 (D' : Prop), act m = .ok a m1 → R a a' → (D → D') →
      (D' ∨ ∃ g g', act' g = .ok a' g') → Mirrors V E D' S (f a) (f' a') m1) :
    Mirrors V E D S (act >>= f) (act' >>= f') m := by
  intro b m2 hok
  obtain ⟨a, m1, ha, hb⟩ := bind_eq_ok.1 hok
  obtain ⟨hstore1, ⟨a0, ha0⟩, hact⟩ := h a m1 ha
  obtain ⟨hstore2, hresult, -⟩ := hf a a0 m1 True ha ha0 (fun _ => trivial) (.inl trivial) b m2 hb
  refine ⟨Store.develops_composes.trans hstore1 hstore2, hresult, fun hv => ?_⟩
  obtain ⟨a', haa', ha'⟩ | ⟨e, c, he, hE⟩ | hD := hact (hv.of_grows hstore2.grows)
  · rw [bind_of_ok ha']
    exact (hf a a' m1 D ha haa' id (.inr ⟨_, _, ha'⟩) b m2 hb).2.2 hv
  · exact .inr (.inl ⟨e, c, bind_of_error he, hE⟩)
  · exact .inr (.inr hD)

theorem bind {f : α → Run σ β} (h : Mirrors V E D R act act' m)
    (hf : ∀ a a' m1, act m = .ok a m1 → R a a' → Mirrors V E D S (f a) (f' a') m1) :
    Mirrors V E D S (act >>= f) (act' >>= f') m :=
  h.bindResult fun a a' m1 _ ha haa' hD _ => (hf a a' m1 ha haa').weaken hD

/-- A result on known bytes that is a function of the one on symbolic bytes. -/
theorem bindOf {g : α → α'} {f : α → Run σ β} (h : Mirrors V E D (fun a a' => a' = g a) act act' m)
    (hf : ∀ a m1, act m = .ok a m1 → Mirrors V E D S (f a) (f' (g a)) m1) :
    Mirrors V E D S (act >>= f) (act' >>= f') m :=
  h.bind fun a _ m1 ha haa' => haa' ▸ hf a m1 ha

theorem mono {R' : α → α' → Prop} (h : Mirrors V E D R act act' m) (hR : ∀ a a', R a a' → R' a a') :
    Mirrors V E D R' act act' m := by
  intro a m' hok
  obtain ⟨hstore, ⟨a0, ha0⟩, hact⟩ := h a m' hok
  refine ⟨hstore, ⟨a0, hR _ _ ha0⟩, fun hv => ?_⟩
  obtain ⟨a', ha, hok'⟩ | hother := hact hv
  · exact .inl ⟨a', hR _ _ ha, hok'⟩
  · exact .inr hother

/-- Only the computation on symbolic bytes looks at the store. -/
theorem getBind {f : σ → Run σ α} (h : Mirrors V E D R (f m) act' m) :
    Mirrors V E D R ((MonadState.get : Run σ σ) >>= f) act' m := h

/-- Only the computation on symbolic bytes checks data. -/
theorem liftBind {e : Except Failure β} (h : ∀ b, e = .ok b → Mirrors V E D R (f b) act' m) :
    Mirrors V E D R ((liftM e : Run σ β) >>= f) act' m := by
  cases e with
  | ok b => exact h b rfl
  | error x => exact of_error rfl

theorem errorBind {e : Except EvalError β} (h : ∀ b, e = .ok b → Mirrors V E D R (f b) act' m) :
    Mirrors V E D R ((liftM e : Run σ β) >>= f) act' m :=
  liftBind fun b hb => h b (lift_eq_ok.1 hb)

theorem lift {e : Except Failure α} {e' : Except Failure α'}
    (h : ∀ a, e = .ok a → (∃ a', R a a') ∧
      ((∃ a', R a a' ∧ e' = .ok a') ∨ ∃ x, e' = .error (.error x) ∧ E x)) :
    Mirrors V E D R (liftM e : Run σ α) (liftM e' : Run σ α') m := by
  intro a m' hok
  obtain ⟨rfl, rfl⟩ := of_eq_ok.1 hok
  obtain ⟨hresult, hother⟩ := h a rfl
  refine ⟨Store.develops_composes.refl _, hresult, fun _ => ?_⟩
  obtain ⟨a', ha, rfl⟩ | ⟨x, rfl, hx⟩ := hother
  · exact .inl ⟨a', ha, rfl⟩
  · exact .inr (.inl ⟨x, _, rfl, hx⟩)

theorem liftError (h : ∀ a, e = .ok a → (∃ a', R a a') ∧
      ((∃ a', R a a' ∧ e' = .ok a') ∨ ∃ x, e' = .error x ∧ E x)) :
    Mirrors V E D R (liftM e : Run σ α) (liftM e' : Run σ α') m := by
  refine lift fun a ha => (h a (lift_eq_ok.1 ha)).imp_right ?_
  rintro (⟨a', hR, rfl⟩ | ⟨x, rfl, hx⟩)
  · exact .inl ⟨a', hR, rfl⟩
  · exact .inr ⟨x, rfl, hx⟩

/-- A check of data that passes also on known bytes. -/
theorem lift_of_ok (h : ∀ a, e = .ok a → ∃ a', R a a' ∧ e' = .ok a') :
    Mirrors V E D R (liftM e : Run σ α) (liftM e' : Run σ α') m :=
  liftError fun a ha => ⟨(h a ha).imp fun _ => And.left, .inl (h a ha)⟩

theorem same_failure (e : Except Failure α) :
    Mirrors V E D Eq (liftM e : Run σ α) (liftM e : Run σ α) m :=
  lift fun a ha => ⟨⟨a, rfl⟩, .inl ⟨a, rfl, ha⟩⟩

/-- The same check of data ahead of both computations. -/
theorem sameFailureBind {e : Except Failure γ} {f : γ → Run σ α} {f' : γ → Run σ α'}
    (hf : ∀ c, e = .ok c → Mirrors V E D R (f c) (f' c) m) :
    Mirrors V E D R ((liftM e : Run σ γ) >>= f) ((liftM e : Run σ γ) >>= f') m := by
  cases e with
  | ok c => exact hf c rfl
  | error x => exact of_error rfl

theorem sameBind {e : Except EvalError γ} {f : γ → Run σ α} {f' : γ → Run σ α'}
    (hf : ∀ c, e = .ok c → Mirrors V E D R (f c) (f' c) m) :
    Mirrors V E D R ((liftM e : Run σ γ) >>= f) ((liftM e : Run σ γ) >>= f') m :=
  sameFailureBind fun c hc => hf c (lift_eq_ok.1 hc)

theorem stateBind {f : σ → Run σ α} {f' : σ → Run σ α'}
    (hf : Mirrors V E D R (f m) (f' (V.ground m)) m) :
    Mirrors V E D R ((MonadState.get : Run σ σ) >>= f) ((MonadState.get : Run σ σ) >>= f') m := hf

theorem get : Mirrors V E D (fun a a' => a = m ∧ a' = V.ground m) (get : Run σ σ) get m := by
  rintro _ _ ⟨⟩
  exact ⟨Store.develops_composes.refl _, ⟨_, rfl, rfl⟩, fun _ => .inl ⟨_, ⟨rfl, rfl⟩, rfl⟩⟩

theorem modify {f f' : σ → σ} (hstore : V.store (f m) = V.store m)
    (hground : f' (V.ground m) = V.ground (f m)) :
    Shadows V E D (modify f : Run σ Unit) (modify f') m := by
  rintro _ _ ⟨⟩
  refine ⟨?_, ⟨(), trivial⟩, fun _ => .inl ⟨(), trivial, ?_⟩⟩
  · rw [hstore]
    exact Store.develops_composes.refl _
  · rw [← hground]
    rfl

theorem mapM {Q : β → β' → Prop} {f' : β' → Run σ α'} {xs : List β} {xs' : List β'}
    (h : List.Forall₂ Q xs xs') (hf : ∀ x x' m, Q x x' → Mirrors V E D R (f x) (f' x') m) (m : σ) :
    Mirrors V E D (List.Forall₂ R) (xs.mapM f) (xs'.mapM f') m := by
  induction h generalizing m with
  | nil => exact pure .nil
  | cons hx _ ih =>
    rw [List.mapM_cons, List.mapM_cons]
    refine bind (hf _ _ m hx) fun a a' m1 _ ha => bind (ih m1) fun as as' m2 _ has => ?_
    exact pure (.cons ha has)

theorem forIn {Q : β → β' → Prop} {f : β → PUnit → Run σ (ForInStep PUnit)}
    {f' : β' → PUnit → Run σ (ForInStep PUnit)} {xs : List β} {xs' : List β'}
    (h : List.Forall₂ Q xs xs')
    (hf : ∀ x x' m, Q x x' →
      Mirrors V E D (fun r r' => r = .yield ⟨⟩ ∧ r' = .yield ⟨⟩) (f x ⟨⟩) (f' x' ⟨⟩) m) (m : σ) :
    Shadows V E D (forIn xs PUnit.unit f) (forIn xs' PUnit.unit f') m := by
  induction h generalizing m with
  | nil => exact pure trivial
  | cons hx _ ih =>
    rw [List.forIn_cons, List.forIn_cons]
    refine bind (hf _ _ m hx) fun r r' m1 _ hr => ?_
    obtain ⟨rfl, rfl⟩ := hr
    exact ih m1

theorem foldlM {f f' : α → β → Run σ α} {R : α → α → Prop} {a a' : α} (xs : List β)
    (h : R a a') (hf : ∀ a a' x m, R a a' → Mirrors V E D R (f a x) (f' a' x) m) (m : σ) :
    Mirrors V E D R (xs.foldlM f a) (xs.foldlM f' a') m := by
  induction xs generalizing a a' m with
  | nil => exact pure h
  | cons x xs ih =>
    rw [List.foldlM_cons, List.foldlM_cons]
    exact bind (hf a a' x m h) fun b b' m1 _ hb => ih hb m1

end Mirrors
end Run
end SymExec

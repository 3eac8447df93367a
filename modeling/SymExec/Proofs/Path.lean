import SymExec.Explore
import SymExec.Proofs.Growth
import SymExec.Proofs.Loaded

/-!
# Paths

A path is a chain of machines, each of which leads to the next one by a step or by a branch of a fork
(`Machine.Leads`). Along it the store only grows (`Store.Grows`): bytes keep their values, and an
input that satisfies the conditions of a later machine satisfies those of an earlier one. Only
`assume` and the branches of a fork add conditions (`Machine.path_step`).
-/
namespace SymExec

open Run List Store

/-! ## Growth of the store -/

namespace Store

variable {s s' : Store} {x : Nat → BitVec 8}

/-- Terms and conditions speak of bytes that the store has. -/
structure WellFormed (s : Store) : Prop where
  terms : s.Scoped
  conditions : ∀ c ∈ s.path, ∀ i ∈ c.symbols, i < s.size

/-- New bytes and conditions. -/
structure Grows (s s' : Store) : Prop where
  segments : s.segments <+: s'.segments
  path : s.path <+: s'.path
  wellFormed : s.WellFormed → s'.WellFormed

theorem wellFormed_empty : ({} : Store).WellFormed :=
  ⟨by simp [Scoped, definitions, placed], by simp⟩

theorem grows_composes : Composes Grows where
  refl _ := ⟨prefix_refl _, prefix_refl _, id⟩
  trans h h' := ⟨h.segments.trans h'.segments, h.path.trans h'.path, h'.wellFormed ∘ h.wellFormed⟩

theorem WellFormed.extend {b : Segment} (h : s.WellFormed) (hscoped : (s.extend [b]).Scoped) :
    (s.extend [b]).WellFormed := by
  refine ⟨hscoped, fun c hc i hi => ?_⟩
  have := h.conditions c hc i hi
  rw [size_extend_one]
  omega

theorem grows_derives (h : s.Derives s') : s.Grows s' := by
  induction h with
  | refl => exact grows_composes.refl s
  | tail _ hstep ih =>
    obtain ⟨n, t, hscope, -⟩ := hstep
    refine grows_composes.trans ih ⟨prefix_append _ _, prefix_refl _, fun h => ?_⟩
    exact h.extend (h.terms.extend_derived hscope)

theorem grows_input (s : Store) (n : Nat) : s.Grows (s.extend [.input n]) :=
  ⟨prefix_append _ _, prefix_refl _, fun h => h.extend h.terms.extend_input⟩

theorem grows_push (s : Store) (c : Condition) (hc : ∀ i ∈ c.symbols, i < s.size) :
    s.Grows (s.push c) := by
  refine ⟨prefix_refl _, prefix_append _ _, fun h => ⟨h.terms, fun d hd => ?_⟩⟩
  rcases mem_append.1 hd with hd | hd
  · exact h.conditions d hd
  · rw [mem_singleton.1 hd]
    exact hc

def Widens (s s' : Store) : Prop := s.Grows s' ∧ s'.path = s.path

theorem widens_composes : Composes Widens where
  refl s := ⟨grows_composes.refl s, rfl⟩
  trans h h' := ⟨grows_composes.trans h.1 h'.1, h'.2.trans h.2⟩

theorem widens_derives (h : s.Derives s') : s.Widens s' := by
  refine ⟨grows_derives h, ?_⟩
  induction h with
  | refl => rfl
  | tail _ hstep ih =>
    obtain ⟨n, t, -, -⟩ := hstep
    exact ih

theorem widens_input (s : Store) (n : Nat) : s.Widens (s.extend [.input n]) := ⟨grows_input s n, rfl⟩

theorem Grows.valuation (h : s.Grows s') (x : Nat → BitVec 8) {i : Nat} (hi : i < s.size) :
    s'.valuation x i = s.valuation x i := by
  obtain ⟨more, hmore⟩ := h.segments
  have hsame : s'.valuation x = (s.extend more).valuation x := by
    unfold Store.valuation
    rw [← hmore]
    rfl
  rw [hsame, valuation_extend s x more hi]

theorem Grows.holds (h : s.Grows s') (x : Nat → BitVec 8) {c : Condition}
    (hc : ∀ i ∈ c.symbols, i < s.size) : c.holds (s'.valuation x) = c.holds (s.valuation x) :=
  Term.holds_congr fun i hi => h.valuation x (hc i hi)

/-- An input that satisfies the conditions of a store satisfies those that it had before. -/
theorem Grows.accepts (h : s.Grows s') (hs : s.WellFormed) (hx : s'.accepts [] x) :
    s.accepts [] x = true := by
  rw [accepts_iff, append_nil] at hx ⊢
  intro c hc
  rw [← h.holds x (hs.conditions c hc)]
  exact hx c (h.path.subset hc)

/-- An input that satisfies the conditions of a store still does if it satisfies the new ones. -/
theorem Grows.accepts_of_new (h : s.Grows s') (hs : s.WellFormed) (hx : s.accepts [] x)
    (hnew : ∀ c ∈ s'.path.drop s.path.length, c.holds (s'.valuation x) = true) :
    s'.accepts [] x = true := by
  obtain ⟨cs, hcs⟩ := h.path
  rw [accepts_iff, append_nil] at hx ⊢
  rw [← hcs, drop_left] at hnew
  intro c hc
  rw [← hcs] at hc
  rcases mem_append.1 hc with hc | hc
  · rw [h.holds x (hs.conditions c hc)]
    exact hx c hc
  · exact hnew c hc

theorem accepts_push {c : Condition} :
    (s.push c).accepts [] x = true ↔ s.accepts [] x = true ∧ c.holds (s.valuation x) = true := by
  simp only [accepts_iff, push, append_nil, mem_append, mem_singleton]
  constructor
  · exact fun h => ⟨fun d hd => h d (.inl hd), h c (.inr rfl)⟩
  · rintro ⟨h, hc⟩ d (hd | rfl)
    · exact h d hd
    · exact hc

end Store

/-! ## Steps -/

namespace Machine

variable {b : Branch} {m m' : Machine} {p : Program} {d : Decision} {list : List Cell} {r : StepResult}
  {bs : List Branch} {I : Memory → Prop}

/-- What a step does to the store is what the statement or terminator does. -/
theorem steady_stepFrame (f : Frame) : Keeps (Steady Store.Grows) (stepFrame f) :=
  (steady_closed grows_composes fun _ _ => grows_derives).stepAny f
    (fun _ _ _ => steady_symbolizes grows_input)
    (fun _ _ _ _ _ => steady_assumes grows_composes grows_push)

/-- However a step ends, it only keeps the books or it steps the innermost frame. -/
theorem final_step (m : Machine) :
    (∃ e n, step.final m = { m with pending := e, steps := n }) ∨
      ∃ f rest, m.pending = none ∧ (m.counted.steps : Int) ≤ m.limits.steps ∧
        m.stack = f :: rest ∧ step.final m = (stepFrame f).final m.counted := by
  cases hpending : m.pending with
  | some e => exact .inl ⟨none, m.steps, final_of_error (step_of_pending hpending)⟩
  | none =>
    by_cases hstack : m.stack = []
    · exact .inl ⟨m.pending, m.steps, final_of_ok (step_of_empty hpending hstack)⟩
    · obtain ⟨f, rest, hstack⟩ := exists_cons_of_ne_nil hstack
      have hstep := step_of_frame hpending hstack
      split at hstep
      · rw [failReporting_apply] at hstep
        exact .inl ⟨m.pending, m.steps + 1, final_of_error hstep⟩
      · rename_i hlimit
        refine .inr ⟨f, rest, rfl, Int.not_lt.1 hlimit, hstack, ?_⟩
        rw [← final_written (stepFrame f)]
        simp only [final, hstep]

theorem extends_step (m : Machine) : Extends Store.Grows m (step.final m) := by
  have hsame := grows_composes.refl m.memory.store
  obtain ⟨e, n, hfinal⟩ | ⟨f, rest, -, -, -, hfinal⟩ := final_step m
  · rw [hfinal]
    exact extends_of_stack rfl rfl rfl hsame
  · rw [hfinal]
    have hcounted : Extends Store.Grows m m.counted := extends_of_stack rfl rfl rfl hsame
    exact (extends_composes grows_composes).trans hcounted
      (steady_stepFrame f m.counted).toExtends

/-- The next step is a call of the intrinsic `assume`. -/
def Assuming (m : Machine) : Prop :=
  ∃ f c name, m.stack.head? = some f ∧ nextCall? f = some c ∧ c.callee = .str name ∧
    Intrinsic.ofName? name = some .assume

/-- A step adds conditions to the path only if it is a call of `assume`. -/
theorem path_step (h : ¬ m.Assuming) : (step.final m).memory.store.path = m.memory.store.path := by
  obtain ⟨e, n, hfinal⟩ | ⟨f, rest, -, -, hstack, hfinal⟩ := final_step m
  · rw [hfinal]
  · have hframe : Keeps (Steady Store.Widens) (stepFrame f) := by
      refine (steady_closed widens_composes fun _ _ => widens_derives).stepAny f
        (fun _ _ _ => steady_symbolizes widens_input) fun c name hnext hname hassume => ?_
      exact absurd ⟨f, c, name, by rw [hstack]; rfl, hnext, hname, hassume⟩ h
    rw [hfinal]
    exact (hframe m.counted).store.2

theorem invariant_step (hI : Memory.Invariant I) (hm : I m.memory) : I (step.final m).memory := by
  obtain ⟨e, n, hfinal⟩ | ⟨f, rest, -, -, -, hfinal⟩ := final_step m
  · rw [hfinal]
    exact hm
  · rw [hfinal]
    exact (invariant_closed hI).stepAny f (fun _ _ _ => invariant_symbolizes hI)
      (fun _ _ _ _ _ => invariant_assumes hI) m.counted hm

/-- A machine that steps has no error to report. -/
theorem pending_of_step (h : step m = .ok r m') : m.pending = none := by
  cases hpending : m.pending with
  | none => rfl
  | some e =>
    rw [step_of_pending hpending] at h
    cases h

theorem steady_of_step (h : step m = .ok r m') (hstack : m.stack ≠ []) :
    (m.counted.steps : Int) ≤ m.limits.steps ∧ Steady Store.Grows m.counted m' := by
  obtain ⟨f, rest, hstack⟩ := exists_cons_of_ne_nil hstack
  rw [step_of_frame (pending_of_step h) hstack] at h
  split at h
  · rw [failReporting_apply] at h
    cases h
  · rename_i hlimit
    have hframe := steady_stepFrame f m.counted
    rw [final_of_ok (written_eq_ok.1 h)] at hframe
    exact ⟨Int.not_lt.1 hlimit, hframe⟩

theorem steps_of_step (h : step m = .ok r m') :
    m'.steps ≤ m.steps + 1 ∧
      (r ≠ .done → m'.steps = m.steps + 1 ∧ (m'.steps : Int) ≤ m.limits.steps) := by
  by_cases hstack : m.stack = []
  · rw [step_of_empty (pending_of_step h) hstack] at h
    cases h
    exact ⟨Nat.le_succ _, fun hr => absurd rfl hr⟩
  · obtain ⟨hlimit, hsteady⟩ := steady_of_step h hstack
    rw [hsteady.steps]
    exact ⟨Nat.le_refl _, fun _ => ⟨rfl, hlimit⟩⟩

theorem pending_of_ok (h : step m = .ok r m') : m'.pending = none := by
  have hpending := pending_of_step h
  by_cases hstack : m.stack = []
  · rw [step_of_empty hpending hstack] at h
    cases h
    exact hpending
  · exact (steady_of_step h hstack).2.pending.trans hpending

/-! ## Forks -/

def taken (m : Machine) (b : Branch) : Machine :=
  let m := { m with memory := { m.memory with store := m.memory.store.push b.condition } }
  match b.next with
  | .goto block => (goto block).final m
  | .fail e => { m with pending := some e }

theorem branch_of_plain (h : b.write = none) : m.branch b = .ok (m.taken b) := by
  unfold branch follow taken
  rw [h]
  cases b.next <;> rfl

theorem memory_taken (m : Machine) (b : Branch) :
    (m.taken b).memory = { m.memory with store := m.memory.store.push b.condition } := by
  unfold taken
  cases b.next with
  | fail e => rfl
  | goto block =>
    change ((goto block).final _).memory = _
    rw [goto, final_changeFrame]
    split <;> rfl

theorem store_taken (m : Machine) (b : Branch) :
    (m.taken b).memory.store = m.memory.store.push b.condition := by
  rw [memory_taken]

structure ForksAt (m' : Machine) (bs : List Branch) (d : Decision) (list : List Cell) : Prop where
  run : d.run (.cells list) m' = .ok (.fork bs) m'
  branches : bs = feasibleOnly m'.memory.store (d.branches list)
  plain : ∀ b ∈ bs, b.write = none
  symbols : ∀ b ∈ d.branches list, ∀ i ∈ b.condition.symbols, i < m'.memory.store.size

theorem forksAt_of_run (h : d.run (.cells list) m' = .ok (.fork bs) m') : m'.ForksAt bs d list := by
  obtain ⟨-, hbs, hsymbols⟩ := Decision.run_cells h
  cases hbs
  refine ⟨h, rfl, fun b hb => ?_, hsymbols⟩
  have hmem := mem_of_mem_filter hb
  cases d with
  | switch kind values targets otherwise =>
    rcases mem_append.1 hmem with hmem | hmem
    · obtain ⟨_, -, rfl⟩ := mem_map.1 hmem
      rfl
    · rw [mem_singleton.1 hmem]
  | assert expected target message =>
    simp only [Decision.branches, mem_cons, not_mem_nil, or_false] at hmem
    rcases hmem with rfl | rfl <;> rfl

theorem ForksAt.mapM_branch (h : m'.ForksAt bs d list) : bs.mapM m'.branch = .ok (bs.map m'.taken) := by
  rw [except_mapM_eq_ok, forall₂_map_right_iff, forall₂_same]
  exact fun b hb => branch_of_plain (h.plain b hb)

/-- The machine leads to another one: by its next step, or by a branch if the step forks. -/
inductive Leads (m : Machine) : Machine → Prop where
  | advance {m' : Machine} (h : step m = .ok .advance m') : Leads m m'
  | take {bs : List Branch} {b : Branch} {m1 m' : Machine} (h : step m = .ok (.fork bs) m1)
    (hb : b ∈ bs) (hm : m1.branch b = .ok m') : Leads m m'

theorem extends_taken (hb : ∀ i ∈ b.condition.symbols, i < m.memory.store.size) :
    Extends Store.Grows m (m.taken b) := by
  have hpushed : Extends Store.Grows m
      { m with memory := { m.memory with store := m.memory.store.push b.condition } } :=
    extends_of_stack rfl rfl rfl (grows_push _ _ hb)
  unfold taken
  cases b.next with
  | fail e => exact extends_of_stack rfl rfl rfl (grows_push _ _ hb)
  | goto block =>
    have hmoved := (steady_closed (P := False) grows_composes
      fun _ _ => grows_derives).goto block
    exact (extends_composes grows_composes).trans hpushed (hmoved _).toExtends

theorem taken_of_branch (h : m.ForksAt bs d list) (hb : b ∈ bs) (hm : m.branch b = .ok m') :
    m' = m.taken b ∧ ∀ i ∈ b.condition.symbols, i < m.memory.store.size := by
  rw [branch_of_plain (h.plain b hb)] at hm
  refine ⟨(Except.ok.inj hm).symm, h.symbols b ?_⟩
  rw [h.branches] at hb
  exact mem_of_mem_filter hb

theorem Leads.extends (h : m.Leads m') : Extends Store.Grows m m' := by
  cases h with
  | advance h =>
    rw [← final_of_ok h]
    exact extends_step m
  | take h hb hm =>
    have hstep := extends_step m
    rw [final_of_ok h] at hstep
    obtain ⟨f, b, -, -, -, d, list, -, hrun⟩ := fork_cases h
    obtain ⟨rfl, hsymbols⟩ := taken_of_branch (forksAt_of_run hrun) hb hm
    exact (extends_composes grows_composes).trans hstep (extends_taken hsymbols)

theorem invariant_taken (hI : Memory.Invariant I) (hm : I m.memory) (b : Branch) :
    I (m.taken b).memory := by
  rw [memory_taken]
  exact hI.store _ _ hm

/-- What a machine leads to is left by its next step, or by a branch after it. -/
theorem Leads.cases (h : m.Leads m') :
    ∃ r m1, step m = .ok r m1 ∧ (m' = m1 ∨ ∃ b, m' = m1.taken b) := by
  cases h with
  | advance h => exact ⟨_, m', h, .inl rfl⟩
  | take h hb hm =>
    obtain ⟨-, -, -, -, -, d, list, -, hrun⟩ := fork_cases h
    exact ⟨_, _, h, .inr ⟨_, (taken_of_branch (forksAt_of_run hrun) hb hm).1⟩⟩

theorem Leads.invariant (hI : Memory.Invariant I) (h : m.Leads m') (hm : I m.memory) : I m'.memory := by
  have hstep := invariant_step hI hm
  obtain ⟨r, m1, hok, rfl | ⟨b, rfl⟩⟩ := h.cases
  · rwa [final_of_ok hok] at hstep
  · rw [final_of_ok hok] at hstep
    exact invariant_taken hI hstep b

theorem steps_taken (m : Machine) (b : Branch) : (m.taken b).steps = m.steps := by
  unfold taken
  cases b.next with
  | fail e => rfl
  | goto block =>
    have hmoved := (steady_closed (P := False) grows_composes
      fun _ _ => grows_derives).goto block
    exact (hmoved _).steps

theorem Leads.steps (h : m.Leads m') : m'.steps = m.steps + 1 ∧ (m'.steps : Int) ≤ m.limits.steps := by
  cases h with
  | advance h => exact (steps_of_step h).2 nofun
  | take h hb hm =>
    obtain ⟨f, b, -, -, -, d, list, -, hrun⟩ := fork_cases h
    obtain ⟨rfl, -⟩ := taken_of_branch (forksAt_of_run hrun) hb hm
    rw [steps_taken]
    exact (steps_of_step h).2 nofun

/-! ## Machines of a program -/

/-- The frames belong to functions of the program, and the store is well-formed. -/
structure Sound (p : Program) (m : Machine) : Prop where
  program : m.program = p
  functions : ∀ f ∈ m.stack, ∃ name, p.find? name = some f.function
  store : m.memory.store.WellFormed

theorem Sound.fits (h : m.Sound p) (hp : p.NonNegative) (P : Prop) : m.Fits P := by
  refine ⟨h.program ▸ hp.fits P, fun f hf => ?_⟩
  obtain ⟨name, hname⟩ := h.functions f hf
  exact hp.fits P _ (mem_of_find?_eq_some hname)

theorem Sound.extends (h : m.Sound p) (he : Extends Store.Grows m m') : m'.Sound p := by
  refine ⟨he.program.trans h.program, fun f hf => ?_, he.store.wellFormed h.store⟩
  rcases he.functions f hf with ⟨g, hg, hgf⟩ | hfound
  · rw [← hgf]
    exact h.functions g hg
  · rwa [h.program] at hfound

theorem Sound.forksAt (h : m.Sound p) (hp : p.Balanced) (hstep : step m = .ok (.fork bs) m') :
    ∃ (d : Decision) (list : List Cell), m'.ForksAt bs d list ∧ d.Balanced := by
  obtain ⟨f, b, hf, hblock, -, d, list, hd, hrun⟩ := fork_cases hstep
  obtain ⟨name, hname⟩ := h.functions f (mem_of_mem_head? hf)
  exact ⟨d, list, forksAt_of_run hrun, (hp.find? hname).decision hblock hd⟩

/-- The next step adds a condition to the path that is false for the input. -/
def Rejects (x : Nat → BitVec 8) (m : Machine) : Prop :=
  let s := (step.final m).memory.store
  ∃ c ∈ s.path.drop m.memory.store.path.length, c.holds (s.valuation x) = false

/-- After a step an input still satisfies the conditions, or a call of `assume` has ruled it out. -/
theorem accepts_step (hm : m.memory.store.WellFormed) {x : Nat → BitVec 8}
    (hx : m.memory.store.accepts [] x) :
    (step.final m).memory.store.accepts [] x = true ∨ m.Assuming ∧ m.Rejects x := by
  by_cases hrejects : m.Rejects x
  · refine .inr ⟨?_, hrejects⟩
    by_contra hassuming
    obtain ⟨c, hc, -⟩ := hrejects
    rw [path_step hassuming, drop_length] at hc
    exact not_mem_nil hc
  · refine .inl ((extends_step m).store.accepts_of_new hm hx fun c hc => ?_)
    by_contra hfalse
    exact hrejects ⟨c, hc, Bool.eq_false_iff.2 hfalse⟩

end Machine
end SymExec

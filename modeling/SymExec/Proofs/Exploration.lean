import SymExec.Proofs.Path

/-!
# Exploration

What holds of the queue and of what was found at the start, and is kept by every round of the loop,
holds when exploration is over (`Target.explore_invariant`). Unless exploration was stopped, no
machine is left then: all machines at the front of the queue have taken the same number of steps, and
every step counts against the limit. In particular there are machines whose paths have ended, one for
each report (`Target.explore_induction`).
-/
namespace SymExec

open Run List Machine Store

variable {m' : Machine} {x : Exploration} {ms q : List Machine}
  {P : List Machine → Exploration → Prop}

namespace Machine

variable {m : Machine}

inductive LeadsAll (m : Machine) : List Machine → Prop where
  | advance {m' : Machine} (h : step m = .ok .advance m') : LeadsAll m [m']
  | fork {bs : List Branch} {m' : Machine} (h : step m = .ok (.fork bs) m') :
    LeadsAll m (bs.map m'.taken)

def Ends (length : Option Int) (m : Machine) (r : Report) : Prop :=
  m.expand length = .returned r ∨ m.expand length = .failed r ∨ m.expand length = .deadEnd r

theorem LeadsAll.leads (h : m.LeadsAll ms) (hm : m' ∈ ms) : m.Leads m' := by
  cases h with
  | advance h =>
    rw [mem_singleton.1 hm]
    exact .advance h
  | fork h =>
    obtain ⟨f, block, -, -, -, d, list, -, hrun⟩ := fork_cases h
    obtain ⟨b, hb, rfl⟩ := mem_map.1 hm
    exact .take h hb (branch_of_plain ((forksAt_of_run hrun).plain b hb))

theorem leadsAll_of_expand {length : Option Int} {forked : Bool}
    (h : m.expand length = .further forked ms) : m.LeadsAll ms := by
  unfold expand at h
  split at h
  · cases h
  · cases h
  · rename_i m' hstep
    cases h
    exact .advance hstep
  · cases h
  · rename_i bs m' _ hstep
    obtain ⟨f, block, -, -, -, d, list, -, hrun⟩ := fork_cases hstep
    rw [(forksAt_of_run hrun).mapM_branch] at h
    cases h
    exact .fork hstep
  · split at h <;> cases h

end Machine

namespace Exploration

variable {length most : Option Int}
variable {m : Machine} {steps : Nat} {limit : Int} {y : Exploration}

/-- A machine leads further, its path ends with a report, or exploration ends. -/
theorem absorb_cases (h : x.absorb most (m.expand length) = (y, ms)) :
    (m.LeadsAll ms ∧ y.reports = x.reports) ∨
    (ms = [] ∧ ∃ r, m.Ends length r ∧ y.reports = x.reports ++ [r]) ∨
    (ms = [] ∧ y.reports = x.reports ∧ y.halted = true) := by
  cases hexpand : m.expand length with
  | further forked ms' =>
    rw [hexpand] at h
    cases h
    refine .inl ⟨leadsAll_of_expand hexpand, ?_⟩
    cases forked <;> rfl
  | returned r =>
    rw [hexpand] at h
    cases h
    exact .inr (.inl ⟨rfl, r, .inl hexpand, rfl⟩)
  | failed r =>
    rw [hexpand] at h
    cases h
    exact .inr (.inl ⟨rfl, r, .inr (.inl hexpand), rfl⟩)
  | deadEnd r =>
    rw [hexpand] at h
    cases h
    exact .inr (.inl ⟨rfl, r, .inr (.inr hexpand), rfl⟩)
  | fault cause =>
    rw [hexpand] at h
    cases h
    exact .inr (.inr ⟨rfl, rfl, by simp [halted]⟩)

def Level (limit : Int) (steps : Nat) (ms : List Machine) : Prop :=
  ∀ m ∈ ms, m.steps = steps ∧ m.limits.steps = limit

theorem Level.leadsAll (h : m.steps = steps ∧ m.limits.steps = limit) (hms : m.LeadsAll ms) :
    Level limit (steps + 1) ms ∧ (ms ≠ [] → (↑(steps + 1) : Int) ≤ limit) := by
  refine ⟨fun m' hm' => ?_, fun hne => ?_⟩
  · have hleads := hms.leads hm'
    exact ⟨by rw [hleads.steps.1, h.1], by rw [hleads.extends.limits, h.2]⟩
  · obtain ⟨m', hm'⟩ := exists_mem_of_ne_nil ms hne
    have hsteps := (hms.leads hm').steps
    rw [hsteps.1, h.1, h.2] at hsteps
    exact hsteps.2

/-- What one round of the loop keeps of the queue and of what was found holds when the loop is over;
unless exploration has to end, no machine is left then. -/
theorem loop_invariant (hround : ∀ m q x y ms, P (m :: q) x → x.halted = false →
      x.absorb most (m.expand length) = (y, ms) → P (q ++ ms) y) {rounds : Nat}
    {front back : List Machine} (hP : P (front ++ back.reverse) x) (hgoes : x.halted = false)
    (hfront : Level limit steps front) (hback : Level limit (steps + 1) back)
    (hwithin : back ≠ [] → (↑(steps + 1) : Int) ≤ limit)
    (hrounds : limit.toNat + 1 ≤ steps + rounds) :
    ∃ q, P q (loop length most rounds front back x) ∧
      ((loop length most rounds front back x).halted = false → q = []) := by
  fun_induction loop length most rounds front back x generalizing steps with
  | case1 back x m front rounds y ms habsorb hhalted =>
    exact ⟨_, hround m _ x y ms hP hgoes habsorb, by simp [hhalted]⟩
  | case2 back x m front rounds y ms habsorb hhalted ih =>
    have hP' := hround m _ x y ms hP hgoes habsorb
    have hm := hfront m mem_cons_self
    have hms : Level limit (steps + 1) ms ∧ (ms ≠ [] → (↑(steps + 1) : Int) ≤ limit) := by
      rcases absorb_cases habsorb with ⟨hms, -⟩ | ⟨rfl, -⟩ | ⟨rfl, -⟩
      · exact Level.leadsAll hm hms
      · exact ⟨by simp [Level], by simp⟩
      · exact ⟨by simp [Level], by simp⟩
    refine ih ?_ (by simpa using hhalted) (fun n hn => hfront n (.tail m hn)) ?_ ?_ hrounds
    · simpa using hP'
    · intro n hn
      rcases mem_append.1 hn with hn | hn
      · exact hms.1 n (mem_reverse.1 hn)
      · exact hback n hn
    · intro hne
      by_cases hback : back = []
      · exact hms.2 (by simpa [hback] using hne)
      · exact hwithin hback
  | case3 back x =>
    refine ⟨_, hP, fun _ => ?_⟩
    -- a machine in the queue would have taken more steps than the limit allows
    by_contra hne
    have := hwithin (by simpa using hne)
    omega
  | case4 back x rounds hempty => exact ⟨_, hP, fun _ => by simpa using hempty⟩
  | case5 back x rounds hempty ih =>
    simp only [unattach_reverse, unattach_attach] at ih
    have hlimit := hwithin (by simpa using hempty)
    have hnext : Level limit (steps + 1) back.reverse :=
      fun m hm => hback m (mem_reverse.1 hm)
    exact ih (by simpa using hP) hgoes hnext (by simp [Level]) (by simp) (by omega)

/-- What one round of the loop keeps of the queue and of the machines whose paths have ended. -/
theorem absorb_induction {P : List Machine → List Machine → Prop}
    (hfurther : ∀ m q es ms, P (m :: q) es → m.LeadsAll ms → P (q ++ ms) es)
    (hends : ∀ m q es r, P (m :: q) es → m.Ends length r → P q (es ++ [m])) {es : List Machine}
    (hP : P (m :: q) es) (hreports : List.Forall₂ (Machine.Ends length) es x.reports)
    (h : x.absorb most (m.expand length) = (y, ms)) :
    (∃ es', P (q ++ ms) es' ∧ List.Forall₂ (Machine.Ends length) es' y.reports) ∨
      (y.reports = x.reports ∧ y.halted = true) := by
  rcases absorb_cases h with ⟨hms, hy⟩ | ⟨rfl, r, hr, hy⟩ | ⟨-, hy, hhalted⟩
  · exact .inl ⟨es, hfurther m q es ms hP hms, hy ▸ hreports⟩
  · refine .inl ⟨es ++ [m], ?_, ?_⟩
    · rw [append_nil]
      exact hends m q es r hP hr
    · rw [hy]
      exact rel_append hreports (.cons hr .nil)
  · exact .inr ⟨hy, hhalted⟩

end Exploration

namespace Target

variable {t : Target} {m : Machine} {most : Option Int} {I : Memory → Prop}

def Reaches (t : Target) (m : Machine) : Prop := Relation.ReflTransGen Machine.Leads t.start m

theorem Reaches.invariant (hI : Memory.Invariant I) (hstart : I t.start.memory) (h : t.Reaches m) :
    I m.memory := by
  induction h with
  | refl => exact hstart
  | tail _ hleads ih => exact hleads.invariant hI ih

/-- What holds of the start and is kept by every round holds when exploration is over. -/
theorem explore_invariant (hsteps : t.start.steps = 0) (hstart : P [t.start] {})
    (hround : ∀ m q x y ms, P (m :: q) x → x.halted = false →
      x.absorb most (m.expand t.inputLength) = (y, ms) → P (q ++ ms) y) :
    ∃ q, P q (t.explore most) ∧ ((t.explore most).halted = false → q = []) := by
  have hlevel : Exploration.Level t.start.limits.steps 0 [t.start] := by
    intro m hm
    rw [mem_singleton.1 hm]
    exact ⟨hsteps, rfl⟩
  exact Exploration.loop_invariant hround hstart rfl hlevel (by simp [Exploration.Level]) (by simp)
    (by omega)

/-- What holds of the start and is kept whenever a machine leads further or a path ends holds when
exploration is over, for machines whose paths end with the reports. If exploration was not stopped,
no machine is left. -/
theorem explore_induction {P : List Machine → List Machine → Prop} (most : Option Int)
    (hsteps : t.start.steps = 0) (hstart : P [t.start] [])
    (hfurther : ∀ m q es ms, P (m :: q) es → m.LeadsAll ms → P (q ++ ms) es)
    (hends : ∀ m q es r, P (m :: q) es → m.Ends t.inputLength r → P q (es ++ [m])) :
    ∃ q es, P q es ∧ List.Forall₂ (Machine.Ends t.inputLength) es (t.explore most).reports ∧
      ((t.explore most).halted = false → q = []) := by
  -- a round that ends exploration may lose a machine, so the queue is the true one until then
  let Q (q : List Machine) (x : Exploration) : Prop := ∃ q' es, P q' es ∧
    List.Forall₂ (Machine.Ends t.inputLength) es x.reports ∧ (x.halted = false → q' = q)
  have hround : ∀ m q x y ms, Q (m :: q) x → x.halted = false →
      x.absorb most (m.expand t.inputLength) = (y, ms) → Q (q ++ ms) y := by
    rintro m q x y ms ⟨q', es, hP, hreports, hq⟩ hgoes habsorb
    obtain rfl := hq hgoes
    rcases Exploration.absorb_induction hfurther hends hP hreports habsorb with
      ⟨es', hP', hreports'⟩ | ⟨hy, hhalted⟩
    · exact ⟨q ++ ms, es', hP', hreports', fun _ => rfl⟩
    · exact ⟨m :: q, es, hP, hy ▸ hreports, by simp [hhalted]⟩
  obtain ⟨q, ⟨q', es, hP, hreports, hq⟩, hempty⟩ :=
    explore_invariant hsteps ⟨_, _, hstart, .nil, fun _ => rfl⟩ hround
  exact ⟨q', es, hP, hreports, fun hgoes => (hq hgoes).trans (hempty hgoes)⟩

inductive Round (length most : Option Int) :
    List Machine × Exploration → List Machine × Exploration → Prop where
  | intro {m : Machine} {q ms : List Machine} {x y : Exploration} (hgoes : x.halted = false)
    (habsorb : x.absorb most (m.expand length) = (y, ms)) :
    Round length most (m :: q, x) (q ++ ms, y)

/-- Exploration comes to this queue, with so much found. -/
def Meets (t : Target) (most : Option Int) (q : List Machine) (x : Exploration) : Prop :=
  Relation.ReflTransGen (Round t.inputLength most) ([t.start], {}) (q, x)

def Steps (t : Target) (most : Option Int) (m : Machine) : Prop :=
  ∃ q x, t.Meets most (m :: q) x ∧ x.halted = false

theorem meets_explore (most : Option Int) (hsteps : t.start.steps = 0) :
    ∃ q, t.Meets most q (t.explore most) := by
  obtain ⟨q, hmeets, -⟩ := explore_invariant (P := t.Meets most) hsteps .refl
    fun m q x y ms hmeets hgoes habsorb => hmeets.tail (.intro hgoes habsorb)
  exact ⟨q, hmeets⟩

/-- What holds of the start and is kept by every round holds of all that exploration comes to. -/
theorem Meets.invariant (hstart : P [t.start] {})
    (hround : ∀ m q x y ms, t.Steps most m → P (m :: q) x →
      x.absorb most (m.expand t.inputLength) = (y, ms) → P (q ++ ms) y)
    (h : t.Meets most q x) : P q x := by
  suffices ∀ state, Relation.ReflTransGen (Round t.inputLength most) ([t.start], {}) state →
      P state.1 state.2 from this (q, x) h
  intro state h
  induction h with
  | refl => exact hstart
  | tail hmeets hlast ih =>
    cases hlast with
    | intro hgoes habsorb => exact hround _ _ _ _ _ ⟨_, _, hmeets, hgoes⟩ ih habsorb

theorem Meets.reaches (h : t.Meets most q x) : ∀ m ∈ q, t.Reaches m := by
  refine h.invariant (P := fun q _ => ∀ m ∈ q, t.Reaches m) ?_ fun m q x y ms _ hq habsorb => ?_
  · exact fun m hm => mem_singleton.1 hm ▸ .refl
  · have hrest : ∀ m' ∈ q, t.Reaches m' := fun m' hm' => hq m' (mem_cons_of_mem m hm')
    rcases Exploration.absorb_cases habsorb with ⟨hms, -⟩ | ⟨rfl, -⟩ | ⟨rfl, -⟩
    · intro m' hm'
      rcases mem_append.1 hm' with hm' | hm'
      · exact hrest m' hm'
      · exact (hq m mem_cons_self).tail (hms.leads hm')
    · simpa using hrest
    · simpa using hrest

theorem Steps.reaches (h : t.Steps most m) : t.Reaches m := by
  obtain ⟨q, x, hmeets, -⟩ := h
  exact hmeets.reaches m mem_cons_self

/-! ## Where exploration starts -/

/-- The machine is at the start of a function of a program, and nothing is known of its input. -/
structure Fresh (p : Program) (m : Machine) : Prop where
  sound : m.Sound p
  steps : m.steps = 0
  pending : m.pending = none
  path : m.memory.store.path = []

theorem fresh_of_steady {program : Program} {config : Config}
    (h : Machine.Steady Store.Widens (machine program config) m) : Fresh program m := by
  have hempty : (machine program config).Sound program :=
    ⟨rfl, by simp [machine], wellFormed_empty⟩
  have hgrows : Machine.Extends Store.Grows (machine program config) m :=
    ⟨h.program, h.limits, h.functions, h.store.1⟩
  exact ⟨hempty.extends hgrows, h.steps, h.pending, h.store.2⟩

theorem entry_eq_ok {program : Program} {name : String} {f : Function}
    (h : entry program name = .ok f) : program.find? (.str name) = some f := by
  unfold entry at h
  split at h
  · cases h
  · rename_i g hg
    split at h
    · cases h
      exact hg
    · cases h

/-- A machine with an empty stack whose memory holds the buffer alone. -/
def buffered (program : Program) (config : Config) (cells : List Cell) : Machine :=
  { machine program config with
    memory := {
      limit := config.limits.memory
      usage := config.inputLength
      allocs := [(1, ⟨cells, replicate config.inputLength.toNat true, 8, .abstract, [], []⟩)]
      next := 2
      store := { segments := [.input config.inputLength.toNat] }
      root := some 1 } }

def bufferRef (config : Config) (ty : Ty) : Arg :=
  ⟨.pair (.ptr (.known 1 0)) (.ofInt config.inputLength), ty⟩

variable {program : Program} {name : String} {config : Config} {t : Target}

theorem started_eq_ok {act : Run Machine Unit} : started m act = .ok m' ↔ act m = .ok () m' := by
  unfold started
  cases act m <;> simp

theorem allocateAbstract_machine {p : Pointer}
    (h : onMemory (Memory.allocateAbstract config.inputLength 8) (machine program config) = .ok p m) :
    p = .known 1 0 ∧ { m with memory := { m.memory with root := some 1 } }
      = buffered program config (cellsFrom 0 config.inputLength.toNat) := by
  unfold onMemory at h
  split at h
  · rename_i hact
    cases h
    have hempty : (machine program config).memory.Ordered := ⟨.nil, by simp [machine]⟩
    obtain ⟨rfl, rfl⟩ := Memory.allocateAbstract_eq_ok hempty hact
    refine ⟨rfl, ?_⟩
    simp [machine, buffered, size, extend]
  · cases h

theorem ofMain_eq_ok (h : ofMain program name config = .ok t) :
    ∃ f, entry program name = .ok f ∧
      pushFrame f [] none none (machine program config) = .ok () t.start := by
  obtain ⟨f, hlift, h⟩ := bind_iff.1 h
  have hf := lift_eq_ok.1 hlift
  dsimp only at h
  split at h
  · cases h
  · obtain ⟨start, hstart, ⟨⟩⟩ := bind_iff.1 h
    exact ⟨f, hf, started_eq_ok.1 hstart⟩

theorem inputLength_ofMain (h : ofMain program name config = .ok t) : t.inputLength = none := by
  obtain ⟨f, -, h⟩ := bind_iff.1 h
  dsimp only at h
  split at h
  · cases h
  · obtain ⟨start, -, ⟨⟩⟩ := bind_iff.1 h
    rfl

theorem ofSymbolic_eq_ok (h : ofSymbolic program name config = .ok t) :
    ∃ f ty m, entry program name = .ok f ∧ bytesParam? f = some ty ∧
      t.inputLength = some config.inputLength ∧
      onMemory (Memory.allocateAbstract config.inputLength 8) (machine program config)
        = .ok (.known 1 0) m ∧
      { m with memory := { m.memory with root := some 1 } }
        = buffered program config (cellsFrom 0 config.inputLength.toNat) ∧
      pushFrame f [bufferRef config ty] none none
        (buffered program config (cellsFrom 0 config.inputLength.toNat)) = .ok () t.start := by
  obtain ⟨f, hlift, h⟩ := bind_iff.1 h
  have hf := lift_eq_ok.1 hlift
  split at h
  · cases h
  · rename_i ty hty
    obtain ⟨start, hstart, ⟨⟩⟩ := bind_iff.1 h
    obtain ⟨p, m, hallocate, hpush⟩ := bind_eq_ok.1 (started_eq_ok.1 hstart)
    obtain ⟨rfl, hbuffered⟩ := allocateAbstract_machine hallocate
    refine ⟨f, ty, m, hf, hty, rfl, hallocate, hbuffered, ?_⟩
    rw [← hbuffered]
    exact hpush

theorem steady_pushFrame {f : Function} (args : List Arg) (h : ∃ name, m.program.find? name = some f) :
    Machine.Steady Store.Widens m ((pushFrame f args none none).final m) :=
  (steady_closed widens_composes fun _ _ => widens_derives).pushAny args
    none none h

theorem fresh_ofMain (h : ofMain program name config = .ok t) : Fresh program t.start := by
  obtain ⟨f, hf, hpush⟩ := ofMain_eq_ok h
  rw [← final_of_ok hpush]
  exact fresh_of_steady (steady_pushFrame _ ⟨_, entry_eq_ok hf⟩)

theorem fresh_ofSymbolic (h : ofSymbolic program name config = .ok t) : Fresh program t.start := by
  obtain ⟨f, ty, -, hf, -, -, -, -, hpush⟩ := ofSymbolic_eq_ok h
  have hbuffer : Machine.Steady Store.Widens (machine program config)
      (buffered program config (cellsFrom 0 config.inputLength.toNat)) :=
    ⟨extends_of_stack rfl rfl rfl (widens_input {} _), rfl, rfl⟩
  rw [← final_of_ok hpush]
  exact fresh_of_steady ((steady_composes widens_composes).trans hbuffer
    (steady_pushFrame _ ⟨_, entry_eq_ok hf⟩))

def Starts (program : Program) (name : String) (config : Config) (t : Target) : Prop :=
  ofMain program name config = .ok t ∨ ofSymbolic program name config = .ok t

theorem fresh_start (h : t.Starts program name config) : Fresh program t.start := by
  rcases h with h | h
  · exact fresh_ofMain h
  · exact fresh_ofSymbolic h

theorem start_eq_ok (h : t.Starts program name config) :
    ∃ f args m, (∃ name, m.program.find? name = some f) ∧
      pushFrame f args none none m = .ok () t.start ∧
      (m = machine program config ∨ ofSymbolic program name config = .ok t ∧
        m = buffered program config (cellsFrom 0 config.inputLength.toNat)) := by
  rcases h with h | h
  · obtain ⟨f, hf, hpush⟩ := ofMain_eq_ok h
    exact ⟨f, _, _, ⟨_, entry_eq_ok hf⟩, hpush, .inl rfl⟩
  · obtain ⟨f, ty, -, hf, -, -, -, -, hpush⟩ := ofSymbolic_eq_ok h
    exact ⟨f, _, _, ⟨_, entry_eq_ok hf⟩, hpush, .inr ⟨h, rfl⟩⟩

theorem invariant_start (hI : Memory.Invariant I) (hempty : I (machine program config).memory)
    (hbuffer : ofSymbolic program name config = .ok t →
      I (buffered program config (cellsFrom 0 config.inputLength.toNat)).memory)
    (h : t.Starts program name config) : I t.start.memory := by
  obtain ⟨f, args, m, hf, hpush, hm⟩ := start_eq_ok h
  have hI' : I m.memory := by
    rcases hm with rfl | ⟨hsymbolic, rfl⟩
    · exact hempty
    · exact hbuffer hsymbolic
  rw [← final_of_ok hpush]
  exact (invariant_closed (P := False) hI).pushAny args none none hf hI'

theorem ordered_start (h : t.Starts program name config) : t.start.memory.Ordered := by
  refine invariant_start Memory.ordered_invariant ?_ ?_ h
  · exact ⟨.nil, by simp [machine]⟩
  · exact fun _ => ⟨pairwise_singleton _ _, by simp [buffered]⟩

end Target
end SymExec

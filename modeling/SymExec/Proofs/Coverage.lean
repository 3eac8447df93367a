import SymExec.Proofs.Exploration

/-!
# No input is lost

Whatever the input, some machine in the queue still agrees with it, or a path that agrees with it has
ended, or an `assume` has ruled it out: every step and every fork keeps this (`covered_further`,
`covered_ends`). So when exploration is over, every input satisfies the conditions of some path that
was reported, unless an `assume` on its way failed (`explore_covers`).
-/
namespace SymExec

open Run List Machine

variable {v : Valuation} {x : Nat → BitVec 8}

/-! ## Valuations of a store -/

namespace Store

variable {s : Store}

/-- The values satisfy the definitions and the conditions of a store. -/
def Models (s : Store) (v : Valuation) : Prop :=
  (∀ d ∈ s.definitions, d.satisfied v) ∧ ∀ c ∈ s.path, c.holds v = true

theorem WellFormed.models (h : s.WellFormed) (hx : s.accepts [] x) :
    s.Models (s.valuation x) := by
  refine ⟨satisfied_valuation h.terms x, ?_⟩
  rwa [accepts_iff, append_nil] at hx

/-- Values that satisfy a store are those that some input determines. -/
theorem Models.exists_input (h : s.Models v) (hs : s.WellFormed) :
    ∃ x, s.accepts [] x = true ∧ ∀ i < s.size, v i = s.valuation x i := by
  let x : Nat → BitVec 8 := fun k => v (s.inputs.getD k 0)
  have hagrees : s.Agrees x v := by
    intro k i hk
    simp only [x, getD_eq_getElem?_getD, hk, Option.getD_some]
  have hv := eq_valuation_of_satisfied hs.terms hagrees h.1
  refine ⟨x, ?_, hv⟩
  rw [accepts_iff, append_nil]
  intro c hc
  rw [← Term.holds_congr fun i hi => hv i (hs.conditions c hc i hi)]
  exact h.2 c hc

theorem Models.feasible (h : s.Models v) (hs : s.WellFormed) {c : Condition}
    (hc : ∀ i ∈ c.symbols, i < s.size) (hv : c.holds v) : s.feasible [c] := by
  obtain ⟨x, hx, hsame⟩ := h.exists_input hs
  refine feasible_iff.2 ⟨x, ?_⟩
  rw [accepts_iff] at hx ⊢
  intro d hd
  rcases mem_append.1 hd with hd | hd
  · exact hx d (mem_append_left _ hd)
  · rw [mem_singleton.1 hd, ← Term.holds_congr fun i hi => hsame i (hc i hi)]
    exact hv

end Store

/-! ## Forks -/

/-- Every valuation of the parent's store takes some branch of a fork, the one that goes on as the
decision does on the number that the bytes spell. -/
theorem Machine.ForksAt.exists_branch {m : Machine} {bs : List Branch} {d : Decision}
    {list : List Cell} (h : m.ForksAt bs d list) (hd : d.Balanced) (hm : m.memory.store.WellFormed)
    (hv : m.memory.store.Models v) :
    ∃ b ∈ bs, b.condition.holds v = true ∧ (d.Admits (Cell.valueOf v list) →
      d.run (.ofBits (Cell.valueOf v list) d.kind) = b.next.run) := by
  obtain ⟨b, hb, hholds, hrun⟩ := Decision.exists_branch hd list v
  refine ⟨b, ?_, hholds, hrun⟩
  rw [h.branches]
  exact mem_filter.2 ⟨hb, hv.feasible hm (h.symbols b hb) hholds⟩

/-! ## Exploration -/

namespace Target

variable {t : Target} {m : Machine}

/-- An input follows a chain of machines if it satisfies the conditions of all of them. -/
def Follows (t : Target) (x : Nat → BitVec 8) (m : Machine) : Prop :=
  Relation.ReflTransGen
    (fun m m' => Machine.Leads m m' ∧ m'.memory.store.accepts [] x = true) t.start m

theorem Follows.reaches (h : t.Follows x m) :
    t.Reaches m := Relation.ReflTransGen.mono (fun _ _ h => h.1) _ _ h

theorem Follows.accepts {p : Program} (ht : Fresh p t.start) (h : t.Follows x m) :
    m.memory.store.accepts [] x = true := by
  cases h with
  | refl => simp [Store.accepts, ht.path]
  | tail _ h => exact h.2

theorem Reaches.sound {p : Program} (ht : Fresh p t.start) (h : t.Reaches m) : m.Sound p := by
  induction h with
  | refl => exact ht.sound
  | tail _ hleads ih => exact ih.extends hleads.extends

/-- Where an input is: at a machine in the queue, at the end of a path, or ruled out by `assume`. -/
def Covered (t : Target) (q es : List Machine) (x : Nat → BitVec 8) : Prop :=
  (∃ m ∈ q, t.Follows x m) ∨
  (∃ m ∈ es, (step.final m).memory.store.accepts [] x = true) ∨
  ∃ m, t.Follows x m ∧ m.Assuming ∧ m.Rejects x

section Covered

variable {p : Program} {t : Target} (hp : p.Balanced) (ht : Fresh p t.start)
include hp ht

variable {es q : List Machine}

theorem covered_further {ms : List Machine} (h : t.Covered (m :: q) es x) (hms : m.LeadsAll ms) :
    t.Covered (q ++ ms) es x := by
  rcases h with ⟨m', hm', hfollows⟩ | hended
  · rcases mem_cons.1 hm' with rfl | hm'
    · have hsound := hfollows.reaches.sound ht
      rcases accepts_step hsound.store (hfollows.accepts ht) with haccepts | hrejects
      · refine .inl ?_
        have hfinal := hsound.extends (extends_step m')
        cases hms with
        | advance hstep =>
          rw [final_of_ok hstep] at haccepts
          exact ⟨_, by simp, hfollows.tail ⟨.advance hstep, haccepts⟩⟩
        | @fork bs m1 hstep =>
          rw [final_of_ok hstep] at haccepts hfinal
          obtain ⟨d, list, hforks, hd⟩ := hsound.forksAt hp hstep
          obtain ⟨b, hb, hholds, -⟩ :=
            hforks.exists_branch hd hfinal.store (hfinal.store.models haccepts)
          refine ⟨m1.taken b, mem_append_right _ (mem_map_of_mem hb), hfollows.tail ?_⟩
          refine ⟨.take hstep hb (branch_of_plain (hforks.plain b hb)), ?_⟩
          rw [store_taken, Store.accepts_push]
          exact ⟨haccepts, hholds⟩
      · exact .inr (.inr ⟨m', hfollows, hrejects⟩)
    · exact .inl ⟨m', mem_append_left _ hm', hfollows⟩
  · exact .inr hended

omit hp in
theorem covered_ends (h : t.Covered (m :: q) es x) : t.Covered q (es ++ [m]) x := by
  rcases h with ⟨m', hm', hfollows⟩ | ⟨m', hm', haccepts⟩ | hrejects
  · rcases mem_cons.1 hm' with rfl | hm'
    · have hsound := hfollows.reaches.sound ht
      rcases accepts_step hsound.store (hfollows.accepts ht) with haccepts | hrejects
      · exact .inr (.inl ⟨m', by simp, haccepts⟩)
      · exact .inr (.inr ⟨m', hfollows, hrejects⟩)
    · exact .inl ⟨m', hm', hfollows⟩
  · exact .inr (.inl ⟨m', mem_append_left _ hm', haccepts⟩)
  · exact .inr (.inr hrejects)

theorem exists_covered (most : Option Int) (hrun : (t.explore most).fault = none)
    (hgoes : (t.explore most).stats.stopped = false) :
    ∃ es : List Machine,
      List.Forall₂ (fun m r => t.Reaches m ∧ m.Ends t.inputLength r) es (t.explore most).reports ∧
      ∀ x, t.Covered [] es x := by
  let P (q es : List Machine) : Prop := (∀ m ∈ q ++ es, t.Reaches m) ∧ ∀ x, t.Covered q es x
  have hstart : P [t.start] [] :=
    ⟨fun m hm => mem_singleton.1 hm ▸ .refl, fun x => .inl ⟨t.start, by simp, .refl⟩⟩
  have hfurther (m : Machine) (q es ms : List Machine) (h : P (m :: q) es) (hms : m.LeadsAll ms) :
      P (q ++ ms) es := by
    refine ⟨fun m' hm' => ?_, fun x => covered_further hp ht (h.2 x) hms⟩
    simp only [mem_append] at hm'
    rcases hm' with (hm' | hm') | hm'
    · exact h.1 m' (by simp [hm'])
    · exact (h.1 m (by simp)).tail (hms.leads hm')
    · exact h.1 m' (by simp [hm'])
  have hends (m : Machine) (q es : List Machine) (r : Report) (h : P (m :: q) es)
      (_ : m.Ends t.inputLength r) : P q (es ++ [m]) := by
    refine ⟨fun m' hm' => h.1 m' ?_, fun x => covered_ends ht (h.2 x)⟩
    simp only [mem_append, mem_cons, not_mem_nil, or_false] at hm' ⊢
    tauto
  obtain ⟨q, es, ⟨hreaches, hcovered⟩, hreports, hempty⟩ :=
    explore_induction most ht.steps hstart hfurther hends
  have hnone : q = [] := hempty (by simp [Exploration.halted, hrun, hgoes])
  subst hnone
  refine ⟨es, ?_, hcovered⟩
  exact (forall₂_and_left ..).2 ⟨hreaches, hreports⟩

end Covered

/-- No input is lost. If exploration of a loaded program is neither stopped nor cut short, every input
satisfies the definitions and conditions that some reported path ended with, unless the path that it
follows assumes a condition that is false for it. At every fork, each valuation of the parent's store
satisfies the condition of a branch that goes on as the switch or the assertion does on the number
that the bytes spell; to an assertion this applies if they spell zero or one. -/
theorem explore_covers {raw : Json} {strict : Bool} {program : Program} {name : String}
    {config : Config} {t : Target} (most : Option Int)
    (hload : Program.load raw strict = .ok program)
    (ht : ofMain program name config = .ok t ∨ ofSymbolic program name config = .ok t)
    (hrun : (t.explore most).fault = none) (hgoes : (t.explore most).stats.stopped = false) :
    (∃ es : List Machine,
      List.Forall₂ (fun m r => t.Reaches m ∧ m.Ends t.inputLength r) es (t.explore most).reports ∧
      ∀ x : Nat → BitVec 8,
        (∃ m ∈ es, let s := (Machine.step.final m).memory.store
          s.Agrees x (s.valuation x) ∧ s.Models (s.valuation x)) ∨
        ∃ m, t.Follows x m ∧ m.Assuming ∧ m.Rejects x) ∧
    (∀ (m m' : Machine) (bs : List Branch), t.Reaches m → Machine.step m = .ok (.fork bs) m' →
      ∃ (f : Frame) (b : Block) (d : Decision) (list : List Cell),
        f ∈ m.stack.head? ∧ Machine.blockOf f = .ok b ∧ d.BelongsTo b.terminator ∧
        d.run (.cells list) m' = .ok (.fork bs) m' ∧
        ∀ v, m'.memory.store.Models v →
          ∃ b ∈ bs, b.condition.holds v = true ∧ (d.Admits (Cell.valueOf v list) →
            d.run (.ofBits (Cell.valueOf v list) d.kind) m' = b.next.run m')) := by
  have hp := Program.balanced_of_load hload
  have hfresh : Fresh program t.start := by
    rcases ht with ht | ht
    · exact fresh_ofMain ht
    · exact fresh_ofSymbolic ht
  constructor
  · obtain ⟨es, hes, hcovered⟩ := exists_covered hp hfresh most hrun hgoes
    refine ⟨es, hes, fun x => ?_⟩
    rcases hcovered x with ⟨m, hm, -⟩ | ⟨m, hm, haccepts⟩ | hrejects
    · cases hm
    · refine .inl ⟨m, hm, Store.agrees_valuation _ x, ?_⟩
      have hreaches := ((forall₂_and_left ..).1 hes).1 m hm
      exact ((hreaches.sound hfresh).extends (extends_step m)).store.models haccepts
    · exact .inr hrejects
  · intro m m' bs hreaches hstep
    have hsound := hreaches.sound hfresh
    obtain ⟨f, b, hf, hblock, -, d, list, hd, hforks⟩ := fork_cases hstep
    obtain ⟨_, hname⟩ := hsound.functions f (mem_of_mem_head? hf)
    have hbalanced := (hp.find? hname).decision hblock hd
    have hfinal := hsound.extends (extends_step m)
    rw [final_of_ok hstep] at hfinal
    refine ⟨f, b, d, list, hf, hblock, hd, hforks, fun v hv => ?_⟩
    obtain ⟨b, hb, hholds, hsame⟩ :=
      (forksAt_of_run hforks).exists_branch hbalanced hfinal.store hv
    exact ⟨b, hb, hholds, fun h => by rw [hsame h]⟩

end Target

/-! ## A switch on the first byte -/

namespace Sample

/-- A program whose only function compares its first byte with numbers and returns. -/
def raw (values : List Json) : Json := .obj [("functions", .arr [.obj [
  ("name", .str "f"), ("arg_count", .int 1), ("locals", .arr [.str "()", .str "&[u8]"]),
  ("blocks", .arr [
    .obj [("terminator", .obj [
      ("switch_int", .obj [("copy", .obj [("local", .int 1),
        ("projections", .arr [.str "deref", .obj [("const_index", .int 0)]])])]),
      ("values", .arr values), ("targets", .arr (values.map fun _ => .int 1)),
      ("otherwise", .int 1)])],
    .obj [("terminator", .str "return")]])]])]

def function (values : List Int) : Function where
  name := .str "f"
  locals := [.unit, .ref (.slice .u8) false]
  argCount := 1
  blocks := [⟨[], .switch (.copy ⟨1, [.deref, .constIndex 0]⟩) values (values.map fun _ => 1) 1⟩,
    ⟨[], .ret⟩]

def program (values : List Int) : Program := ⟨[function values]⟩

def config : Config := { limits := { steps := 9 }, inputLength := 1 }

/-- The buffer of one symbolic byte, the result and the parameter, which points to the buffer. -/
def memory : Memory where
  limit := config.limits.memory
  usage := 17
  allocs := [(1, ⟨[.symbol 0], [true], 8, .abstract, [], []⟩), (2, ⟨[], [], 1, .stack, [], []⟩),
    (3, ⟨replicate 8 (.known 0) ++ Cell.ofNat 1 8, replicate 16 true, 8, .stack,
      [(0, .known 1 0)], []⟩)]
  next := 4
  store := { segments := [.input 1] }
  root := some 1

def target (values : List Int) : Target where
  start := {
    program := program values
    limits := config.limits
    memory := memory
    stack := [{ function := function values, locals := [.known 2 0, .known 3 0] }] }
  inputLength := some 1

def decision (values : List Int) : Decision := .switch .u8 values (values.map fun _ => 1) 1

theorem ofSymbolic_program (values : List Int) :
    Target.ofSymbolic (program values) "f" config = .ok (target values) := by
  rfl

/-- The machine after a branch of the fork. -/
def taken (values : List Int) (c : Condition) : Machine :=
  (target values).start.counted.taken { condition := c, next := .goto 1 }

theorem step_taken (values : List Int) (c : Condition) :
    ∃ m, step (taken values c) = .ok .done m ∧
      ∃ memory, releaseRoot m.memory = .ok memory := ⟨_, rfl, _, rfl⟩

theorem expand_taken (values : List Int) (c : Condition) :
    ∃ r, (taken values c).expand (some 1) = .returned r := by
  obtain ⟨m, hstep, memory, hrelease⟩ := step_taken values c
  simp only [expand, hstep, successReport, hrelease]
  cases m.leastInput (some 1) <;> exact ⟨_, rfl⟩

/-- Some input takes each branch. -/
theorem fork_start : step (target [7]).start =
    .ok (.fork ((decision [7]).branches [.symbol 0])) (target [7]).start.counted := by
  have hfeasible : feasibleOnly memory.store ((decision [7]).branches [.symbol 0])
      = (decision [7]).branches [.symbol 0] := by
    refine filter_eq_self.2 fun b hb => Store.feasible_iff.2 ?_
    rcases mem_cons.1 hb with rfl | hb
    · exact ⟨fun _ => 7, by decide +kernel⟩
    · rw [mem_singleton.1 hb]
      exact ⟨fun _ => 0, by decide +kernel⟩
  have hstep : step (target [7]).start = .ok (.fork (feasibleOnly memory.store
      ((decision [7]).branches [.symbol 0]))) (target [7]).start.counted := rfl
  rwa [hfeasible] at hstep

theorem expand_start : (target [7]).start.expand (some 1) = .further true
    [taken [7] (Decision.isNumber .u8 [.symbol 0] 7),
      taken [7] (.not (Decision.isNumber .u8 [.symbol 0] 7))] := by
  simp only [expand, fork_start]
  rfl

theorem explore_target : ((target [7]).explore none).fault = none ∧
    ((target [7]).explore none).stats.stopped = false := by
  obtain ⟨r, hr⟩ := expand_taken [7] (Decision.isNumber .u8 [.symbol 0] 7)
  obtain ⟨r', hr'⟩ := expand_taken [7] (.not (Decision.isNumber .u8 [.symbol 0] 7))
  have hexplore : (target [7]).explore none =
      Exploration.loop (some 1) none 10 [(target [7]).start] [] {} := rfl
  rw [hexplore]
  simp [Exploration.loop, expand_start, hr, hr', Exploration.absorb, Exploration.halted,
    Exploration.countFork, Exploration.countStep, Exploration.deliver, Exploration.wanted]

end Sample

theorem Target.explore_covers_sample :
    Program.load (Sample.raw [.int 7]) true = .ok (Sample.program [7]) ∧
    Target.ofSymbolic (Sample.program [7]) "f" Sample.config = .ok (Sample.target [7]) ∧
    ∃ es : List Machine,
      List.Forall₂ (fun m r => (Sample.target [7]).Reaches m ∧ m.Ends (some 1) r) es
        ((Sample.target [7]).explore none).reports ∧
      ∀ x : Nat → BitVec 8,
        (∃ m ∈ es, let s := (Machine.step.final m).memory.store
          s.Agrees x (s.valuation x) ∧ s.Models (s.valuation x)) ∨
        ∃ m, (Sample.target [7]).Follows x m ∧ m.Assuming ∧ m.Rejects x := by
  have hload : Program.load (Sample.raw [.int 7]) true = .ok (Sample.program [7]) := by rfl
  have hstart := Sample.ofSymbolic_program [7]
  refine ⟨hload, hstart, ?_⟩
  exact (Target.explore_covers none hload (.inr hstart) Sample.explore_target.1
    Sample.explore_target.2).1

end SymExec

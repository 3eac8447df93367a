import SymExec.Proofs.Least
import SymExec.Proofs.Replay
import SymExec.Proofs.Tree

/-!
# Successes are satisfiable

A path that returns is a success if an input of it can be given out. To find one, the store is
solved, unless no byte is asked for: so a path whose conditions contradict each other is a success if
and only if inputs of length zero are reported (`Target.success_iff_satisfiable`). Where all input
bytes are reported and there are none, nothing is solved either. But without inputs there are no
symbolic bytes at all, and no condition that could be false (`Store.Certain`).
-/
namespace SymExec

open Run Machine

/-! ## Stores without inputs -/

namespace Store

/-- An input is found unless none is asked for or the store has no model. -/
theorem assignment_isOk_iff {s : Store} (hs : s.WellFormed) (length : Int) :
    (∃ x, s.assignment length = .ok x) ↔ length = 0 ∨ ∃ v, s.Models v := by
  unfold assignment
  by_cases hlength : length = 0
  · simp [hlength]
  · simp only [hlength, if_false, false_or]
    cases hleast : s.leastCode? with
    | some code =>
      exact ⟨fun _ => ⟨_, hs.models (accepts_of_leastCode? hleast)⟩, fun _ => ⟨_, rfl⟩⟩
    | none =>
      constructor
      · rintro ⟨_, ⟨⟩⟩
      · rintro ⟨v, hv⟩
        obtain ⟨input, haccepts, -⟩ := hv.exists_input hs
        rw [leastCode?_eq_none hleast input] at haccepts
        cases haccepts

/-- Without inputs there are no symbolic bytes, and all conditions hold. -/
def Certain (s : Store) : Prop := s.inputCount = 0 → s.size = 0 ∧ ∀ v, s.Models v

theorem certain_empty : ({} : Store).Certain := fun _ =>
  ⟨rfl, fun v => ⟨by simp [definitions, placed], by simp⟩⟩

theorem Certain.develops {s s' : Store} (h : s.Certain) (hs : s.Develops s') : s'.Certain := by
  intro hinputs
  obtain ⟨hempty, hmodels⟩ := h (hs.inputs ▸ hinputs)
  exact ⟨(hs.empty hempty).1, fun v => (hs.empty hempty).2 v (hmodels v)⟩

theorem Certain.input {s : Store} (h : s.Certain) (n : Nat) : (s.extend [.input n]).Certain := by
  intro hinputs
  obtain ⟨hcount, rfl⟩ : s.inputCount = 0 ∧ n = 0 := by simpa using hinputs
  obtain ⟨hempty, hmodels⟩ := h hcount
  refine ⟨by simpa [size_extend_one, Segment.size] using hempty, fun v => ⟨?_, (hmodels v).2⟩⟩
  rw [definitions_extend_input]
  exact (hmodels v).1

def KeepsCertain (s s' : Store) : Prop := s.Certain → s'.Certain

theorem keepsCertain_composes : Composes KeepsCertain := ⟨fun _ => id, fun h h' => h' ∘ h⟩

end Store

/-! ## Steps -/

namespace Machine

variable {p : Program} {m m' : Machine}

theorem not_assume_of_makeSymbolic {name : String}
    (h : Builtin.ofName? (.str name) = some .makeSymbolic) : Intrinsic.ofName? name ≠ some .assume := by
  have hname : Builtin.name .makeSymbolic = name := by
    simpa using List.find?_some h
  subst hname
  decide

theorem certain_makeSymbolic {f : Frame} {c : Call} (hc : nextCall? f = some c)
    (hsymbolic : Builtin.ofName? c.callee = some .makeSymbolic) :
    Keeps (Steady Store.KeepsCertain) (stepFrame f) := by
  have hclosed : Closed False (Steady Store.KeepsCertain) :=
    steady_closed Store.keepsCertain_composes fun _ _ hs h => h.develops (Store.develops_derives hs)
  refine hclosed.stepAny f (fun _ _ _ => steady_symbolizes fun _ n h => h.input n) ?_
  intro c' name hc' hname hassume
  obtain rfl : c = c' := Option.some.inj (hc.symm.trans hc')
  rw [hname] at hsymbolic
  exact absurd hassume (not_assume_of_makeSymbolic hsymbolic)

theorem certain_step (hp : p.Balanced) (hm : m.Replayable p) (h : m.memory.store.Certain) {i : Nat}
    {r : StepResult} (hstep : (step >>= choose i) m = .ok r m') : m'.memory.store.Certain := by
  obtain ⟨r1, m1, hfirst, hchoose⟩ := bind_eq_ok.1 hstep
  have hpending := pending_of_step hfirst
  by_cases hinput : m.KeepsInput
  · exact h.develops (mirrors_step (fun _ => 0) {} hp hinput hm hpending i _ _ hstep).1
  · simp only [KeepsInput, not_forall, not_not] at hinput
    obtain ⟨f, hf, c, hc, hsymbolic⟩ := hinput
    obtain ⟨rest, hstack⟩ := List.head?_eq_some_iff.1 hf
    -- a call does not fork
    have hsame : m' = m1 := by
      cases r1 with
      | fork bs =>
        obtain ⟨f', -, hf', -, hnone, -⟩ := fork_cases hfirst
        obtain rfl : f = f' := Option.some.inj (hf.symm.trans hf')
        rw [hc] at hnone
        cases hnone
      | advance | done =>
        cases hchoose
        rfl
    rw [step_of_frame hpending hstack] at hfirst
    split at hfirst
    · rw [failReporting_apply] at hfirst
      cases hfirst
    · have hkeeps := (certain_makeSymbolic hc hsymbolic m.counted).store
      rw [final_of_ok (written_eq_ok.1 hfirst)] at hkeeps
      rw [hsame]
      exact hkeeps h

theorem outcome_successReport {length : Option Int} {r : Report}
    (h : m.successReport length = .ok r) :
    r.outcome = .success ↔ ∃ x, m.leastInput length = .ok x := by
  unfold successReport at h
  cases hinput : m.leastInput length with
  | error e =>
    rw [hinput] at h
    cases h
    simp
  | ok x =>
    rw [hinput] at h
    obtain ⟨memory, -, ⟨⟩⟩ := bind_iff.1 h
    simp

end Machine

/-! ## Paths that return -/

namespace Target

variable {program : Program} {name : String} {config : Config} {t : Target}

theorem Reaches.replayable (hstart : t.start.Replayable program) {m : Machine} (h : t.Reaches m) :
    m.Replayable program := by
  induction h with
  | refl => exact hstart
  | tail _ hleads ih => exact ih.leads hleads

theorem certain_start (h : ofMain program name config = .ok t) : t.start.memory.store.Certain := by
  obtain ⟨f, hf, hpush⟩ := ofMain_eq_ok h
  have hclosed : Machine.Closed False (Machine.Steady Store.KeepsCertain) :=
    steady_closed Store.keepsCertain_composes
      fun _ _ hs h => h.develops (Store.develops_derives hs)
  have hkeeps := hclosed.pushAny (m := machine program config) [] none none ⟨_, entry_eq_ok hf⟩
  rw [final_of_ok hpush] at hkeeps
  exact hkeeps.store Store.certain_empty

/-- Machines of a whole program that go on without an error have certain stores. -/
theorem Reaches.certain (hp : program.Balanced) (h : ofMain program name config = .ok t)
    {m : Machine} (hm : t.Reaches m) (hpending : m.pending = none) : m.memory.store.Certain := by
  have hstart : t.start.Replayable program := ⟨(fresh_ofMain h).sound, ordered_start (.inl h)⟩
  induction hm with
  | refl => exact certain_start h
  | tail hreaches hleads ih =>
    obtain ⟨i, hstep⟩ := hleads.exists_choose hpending
    exact certain_step hp (Reaches.replayable hstart hreaches) (ih hleads.pending) hstep

/-- A path that returns is a success if and only if its definitions and conditions are satisfiable,
or inputs of length zero are reported. Every success that is reported is such a path. -/
theorem success_iff_satisfiable {raw : Json} {strict : Bool}
    (hload : Program.load raw strict = .ok program)
    (ht : ofMain program name config = .ok t ∨ ofSymbolic program name config = .ok t)
    (most : Option Int) :
    (∀ m m', t.Reaches m → Machine.step m = .ok .done m' →
      ∃ r, m.expand t.inputLength = .returned r ∧
        (r.outcome = .success ↔ t.inputLength = some 0 ∨ ∃ v, m'.memory.store.Models v)) ∧
    ∀ r ∈ (t.explore most).reports, r.outcome = .success →
      ∃ m m', t.Reaches m ∧ Machine.step m = .ok .done m' ∧ m.expand t.inputLength = .returned r ∧
        (t.inputLength = some 0 ∨ ∃ v, m'.memory.store.Models v) := by
  have hp := Program.balanced_of_load hload
  have hfresh := fresh_start ht
  have hstart : t.start.Replayable program := ⟨hfresh.sound, ordered_start ht⟩
  have hreturns (m m' : Machine) (hreaches : t.Reaches m) (hdone : step m = .ok .done m') :
      ∃ r, m.expand t.inputLength = .returned r ∧
        (r.outcome = .success ↔ t.inputLength = some 0 ∨ ∃ v, m'.memory.store.Models v) := by
    have hm := hreaches.replayable hstart
    have hextends := extends_step m
    rw [final_of_ok hdone] at hextends
    have hs := (hm.sound.extends hextends).store
    have hreleasable : m'.memory.Releasable := by
      rw [← final_of_ok hdone]
      exact invariant_step Memory.releasable_invariant
        (hreaches.invariant Memory.releasable_invariant (releasable_start ht))
    obtain ⟨r, hr⟩ := successReport_of_releasable hreleasable t.inputLength
    refine ⟨r, by simp only [expand, hdone, hr], ?_⟩
    rw [outcome_successReport hr]
    unfold leastInput
    rw [Store.assignment_isOk_iff hs]
    rcases ht with ht | ht
    · -- without inputs nothing is solved, and any values are a model
      simp only [inputLength_ofMain ht, Option.getD_none, reduceCtorEq, false_or, or_iff_right_iff_imp]
      intro hcount
      have hstep : (step >>= choose 0) m = .ok .done m' := bind_of_ok hdone
      have hcertain := certain_step hp hm
        (hreaches.certain hp ht (pending_of_step hdone)) hstep
      exact ⟨fun _ => 0, (hcertain (by exact_mod_cast hcount)).2 _⟩
    · obtain ⟨-, -, -, -, -, hlength, -⟩ := ofSymbolic_eq_ok ht
      simp [hlength]
  refine ⟨hreturns, fun r hr hsuccess => ?_⟩
  obtain ⟨m, hreaches, hreturned | hother⟩ := exists_reached most hfresh.steps hr
  · obtain ⟨m', hdone, -⟩ := step_of_returned hreturned hsuccess
    obtain ⟨r', hr', hiff⟩ := hreturns m m' hreaches hdone
    obtain rfl : r = r' := Expansion.returned.inj (hreturned.symm.trans hr')
    exact ⟨m, m', hreaches, hdone, hreturned, hiff.1 hsuccess⟩
  · exact absurd hsuccess (outcome_ne_success hother)

end Target

/-! ## A success that no input leads to -/

/-- A target starts once its frame is pushed onto the machine with the buffer. -/
theorem Target.ofSymbolic_of_pushFrame {program : Program} {name : String} {config : Config}
    {f : Function} {ty : Ty} {m start : Machine} (hf : entry program name = .ok f)
    (hty : bytesParam? f = some ty)
    (hallocate : onMemory (Memory.allocateAbstract config.inputLength 8)
      (machine program config) = .ok (.known 1 0) m)
    (hpush : pushFrame f [bufferRef config ty] none none
      { m with memory := { m.memory with root := some 1 } } = .ok () start) :
    ofSymbolic program name config = .ok { start, inputLength := some config.inputLength } := by
  refine bind_iff.2 ⟨f, lift_eq_ok.2 hf, ?_⟩
  rw [hty]
  exact bind_iff.2
    ⟨start, started_eq_ok.2 (bind_eq_ok.2 ⟨.known 1 0, m, hallocate, hpush⟩), rfl⟩

namespace Contradiction

/-- A program that makes a truth value symbolic and assumes it where it is false. -/
def raw : Json := .obj [("functions", .arr [.obj [
  ("name", .str "f"), ("arg_count", .int 1),
  ("locals", .arr [.str "()", .str "&[u8]", .str "bool", .str "&mut bool"]),
  ("blocks", .arr [
    .obj [("statements", .arr [.obj [("assign", .int 3), ("rvalue", .obj [("ref", .int 2)])]]),
      ("terminator", .obj [("call", .str "mksym"), ("args", .arr [.obj [("copy", .int 3)]]),
        ("target", .int 1)])],
    .obj [("terminator", .obj [("switch_int", .obj [("copy", .int 2)]), ("values", .arr [.int 0]),
      ("targets", .arr [.int 2]), ("otherwise", .int 3)])],
    .obj [("terminator", .obj [("call", .str "assume"), ("args", .arr [.obj [("copy", .int 2)]]),
      ("target", .int 3)])],
    .obj [("terminator", .str "return")]])]])]

def function : Function where
  name := .str "f"
  locals := [.unit, .ref (.slice .u8) false, .bool, .ref .bool true]
  argCount := 1
  blocks := [
    ⟨[.assign ⟨3, []⟩ (.ref ⟨2, []⟩ false)],
      .call ⟨.str "mksym", [.copy ⟨3, []⟩], none, some 1, []⟩⟩,
    ⟨[], .switch (.copy ⟨2, []⟩) [0] [2] 3⟩,
    ⟨[], .call ⟨.str "assume", [.copy ⟨2, []⟩], none, some 3, []⟩⟩,
    ⟨[], .ret⟩]

def program : Program := ⟨[function]⟩

def config : Config := { limits := { steps := 9 }, inputLength := 0 }

def memory : Memory where
  limit := config.limits.memory
  usage := 25
  allocs := [(1, ⟨[], [], 8, .abstract, [], []⟩), (2, ⟨[], [], 1, .stack, [], []⟩),
    (3, ⟨List.replicate 8 (.known 0) ++ Cell.ofNat 0 8, List.replicate 16 true, 8, .stack,
      [(0, .known 1 0)], []⟩),
    (4, ⟨[.known 0], [false], 1, .stack, [], []⟩),
    (5, ⟨List.replicate 8 (.known 0), List.replicate 8 false, 8, .stack, [], []⟩)]
  next := 6
  store := { segments := [.input 0] }
  root := some 1

def target : Target where
  start := {
    program := program
    limits := config.limits
    memory := memory
    stack := [{ function := function, locals := [.known 2 0, .known 3 0, .known 4 0, .known 5 0] }] }
  inputLength := some 0

theorem load_raw : Program.load raw true = .ok program := rfl

theorem ofSymbolic_program : Target.ofSymbolic program "f" config = .ok target := by
  -- The buffer first: the frame is evaluated on a machine that is written out.
  let buffered := Target.buffered program config []
  have hallocate : onMemory (Memory.allocateAbstract 0 8) (Target.machine program config) =
      .ok (.known 1 0) { buffered with memory := { buffered.memory with root := none } } := by rfl
  have hpush : pushFrame function [Target.bufferRef config (.ref (.slice .u8) false)]
      none none buffered = .ok () target.start := by rfl
  exact Target.ofSymbolic_of_pushFrame (by rfl) (by rfl) hallocate hpush

def symbolic : Machine := step.final (step.final target.start)

def decision : Decision := .switch .bool [0] [2] 3

/-- The branch on which the truth value is false. -/
def branch : Branch := { condition := Decision.isNumber .bool [.symbol 0] 0, next := .goto 2 }

theorem step_symbolic : step symbolic = .ok (.fork (feasibleOnly
    symbolic.memory.store (decision.branches [.symbol 0]))) symbolic.counted := by
  rfl

def assumed : Machine := step.final (symbolic.counted.taken branch)

theorem reaches_assumed : target.Reaches assumed := by
  have hassign : step target.start = .ok .advance (step.final target.start) := by rfl
  have hsymbolic : step (step.final target.start) = .ok .advance symbolic := by rfl
  have hassume : step (symbolic.counted.taken branch) = .ok .advance assumed := by rfl
  have hbranch : branch ∈ feasibleOnly symbolic.memory.store
      (decision.branches [.symbol 0]) := by
    refine List.mem_filter.2 ⟨List.mem_cons_self, Store.feasible_iff.2 ⟨fun _ => 0, ?_⟩⟩
    decide +kernel
  have hfork : symbolic.Leads (symbolic.counted.taken branch) :=
    .take step_symbolic hbranch (branch_of_plain rfl)
  have hreaches : target.Reaches symbolic := .tail (.single (.advance hassign)) (.advance hsymbolic)
  exact .tail (.tail hreaches hfork) (.advance hassume)

theorem step_assumed : ∃ m, step assumed = .ok .done m ∧ m.memory.store.path =
    [Decision.isNumber .bool [.symbol 0] 0, Decision.isTrue [.symbol 0]] := ⟨_, rfl, rfl⟩

/-- The byte is not both zero and not zero. -/
theorem not_models {s : Store} (h : s.path =
    [Decision.isNumber .bool [.symbol 0] 0, Decision.isTrue [.symbol 0]]) :
    ¬ ∃ v, s.Models v := by
  rintro ⟨v, -, hpath⟩
  simp only [h, List.mem_cons, List.not_mem_nil, or_false, forall_eq_or_imp, forall_eq,
    Decision.holds_isNumber, Decision.holds_isTrue] at hpath
  exact hpath.2 hpath.1.symm

end Contradiction

/-- A path whose conditions exclude each other is a success, since no byte of its input is asked for. -/
theorem Target.success_unsatisfiable_sample :
    Program.load Contradiction.raw true = .ok Contradiction.program ∧
    ofSymbolic Contradiction.program "f" Contradiction.config = .ok Contradiction.target ∧
    ∃ m m' r, Contradiction.target.Reaches m ∧ Machine.step m = .ok .done m' ∧
      (¬ ∃ v, m'.memory.store.Models v) ∧ m.expand (some 0) = .returned r ∧
      r.outcome = .success := by
  obtain ⟨m', hdone, hpath⟩ := Contradiction.step_assumed
  obtain ⟨r, hr, hiff⟩ := (success_iff_satisfiable Contradiction.load_raw
    (.inr Contradiction.ofSymbolic_program) none).1 _ m' Contradiction.reaches_assumed hdone
  exact ⟨Contradiction.load_raw, Contradiction.ofSymbolic_program, _, m', r,
    Contradiction.reaches_assumed, hdone, Contradiction.not_models hpath, hr, hiff.2 (.inl rfl)⟩

end SymExec

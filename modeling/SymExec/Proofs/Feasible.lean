import SymExec.Proofs.Raises
import SymExec.Proofs.Success

/-!
# Feasibility is kept

A store without a model belongs to a path that no input takes. Definitions of new bytes and new
inputs take no model away, and a branch joins the queue only if some input takes it. So unless
`assume` is carried out on symbolic bytes, every machine of an exploration has a model
(`Machine.Feasible`), however its path ends: an input is found for every report. If every value of a
switch has a target, no report says that there is no input, and no fork has no branch
(`Target.explore_feasible`).
-/
namespace SymExec

open Run List Store

/-! ## Inputs that are given out -/

namespace Store

variable {s s' : Store}

theorem Grows.inputCount_le (h : s.Grows s') : s.inputCount ≤ s'.inputCount := by
  obtain ⟨more, hmore⟩ := h.segments
  rw [inputCount, inputCount, ← hmore, filter_append, map_append, sum_append]
  omega

/-- The bytes that are given out are the first ones that a model has for the inputs. -/
theorem assignment_prefix {n : Nat} (hn : n ≤ s.inputCount) (hs : s.WellFormed)
    (hmodel : ∃ v, s.Models v) :
    ∃ x v, s.assignment n = .ok x ∧ x.length = n ∧ s.Models v ∧ x <+: s.inputs.map v := by
  rcases Nat.eq_zero_or_pos n with rfl | hpos
  · obtain ⟨v, hv⟩ := hmodel
    exact ⟨[], v, rfl, rfl, hv, nil_prefix⟩
  · obtain ⟨x, hx, hlength, ⟨v, hv, htake⟩, -, -⟩ := assignment_least hpos hs hmodel
    refine ⟨x, v, hx, hlength, hv, ?_⟩
    rw [Nat.min_eq_left hn, ← hlength, take_length] at htake
    rw [htake]
    exact take_prefix _ _

end Store

/-! ## Assumptions -/

namespace Machine

variable {p : Program} {m m' : Machine}
variable {r : Report} {length : Option Int}

/-- The next step carries out `assume` on symbolic bytes. -/
def AssumesSymbolic (m : Machine) : Prop :=
  m.pending = none ∧ (m.counted.steps : Int) ≤ m.limits.steps ∧
  ∃ f c name arg dest m1 list m2, m.stack.head? = some f ∧ nextCall? f = some c ∧
    c.callee = .str name ∧ Intrinsic.ofName? name = some .assume ∧
    evalCall c m.counted = .ok ([arg], dest) m1 ∧ m1.program.find? c.callee = none ∧
    readArg arg m1 = .ok (.cells list) m2

/-- Assumes that a value is true. -/
def assumeOn (v : Scalar) : Run Machine Unit := do
  match v with
  | .cells list =>
    onStore do
      let s ← get
      require (← s.truth (.cells list))
  | v => if !(← v.toBool) then Run.fail .assumptionFailed

theorem callIntrinsic_assume (callee : String) (arg : Arg) (dest : Option PlaceRef)
    (typeArgs : List Ty) :
    callIntrinsic ⟨.assume, callee, [arg], dest, typeArgs⟩ = readArg arg >>= assumeOn := rfl

/-- On a value that is known, `assume` adds no condition. -/
theorem final_assume {R : Machine → Machine → Prop} (hR : Quiet False R) (callee : String)
    {args : List Arg} (dest : Option PlaceRef) (typeArgs : List Ty)
    (hknown : ∀ arg list m', args = [arg] → readArg arg m ≠ .ok (.cells list) m') :
    R m ((callIntrinsic ⟨.assume, callee, args, dest, typeArgs⟩).final m) := by
  by_cases harity : args.length = 1
  · obtain ⟨arg, rfl⟩ := length_eq_one_iff.1 harity
    rw [callIntrinsic_assume]
    refine hR.bind_final (hR.readArg arg m) fun v m' hv => ?_
    have hkeeps : Keeps R (assumeOn v) := by
      unfold assumeOn
      split
      · exact absurd hv (hknown arg _ m' rfl)
      · grind
    exact hkeeps m'
  · have hfails : callIntrinsic ⟨.assume, callee, args, dest, typeArgs⟩ m
        = .error (.error (.arity (.str callee) 1 args.length)) m := congrFun (if_pos harity) m
    rw [final_of_error hfails]
    exact hR.refl m

/-- Unless `assume` is carried out on symbolic bytes, a step adds no condition. -/
theorem path_of_known (h : ¬ m.AssumesSymbolic) :
    (step.final m).memory.store.path = m.memory.store.path := by
  obtain ⟨e, n, hfinal⟩ | ⟨f, rest, hpending, hlimit, hstack, hfinal⟩ := final_step m
  · rw [hfinal]
  · have hR : Closed False (Steady Store.Widens) :=
      steady_closed widens_composes fun _ _ => widens_derives
    have hany (t : Ty) : t.Fits False := t.fits_of_not id
    have hcall (c : Call) (hc : nextCall? f = some c) :
        Along False (Steady Store.Widens) m.counted ((call c).final m.counted) := by
      refine hR.call_final fun args dest m1 hfound hnone => along_false.2 ?_
      unfold callOther
      split
      · exact hR.callBuiltin _ args (fun _ _ => hany _) c.typeArgs
          (fun _ => steady_symbolizes widens_input) m1
      · rename_i name hbuiltin hname
        split
        · rename_i intrinsic hintrinsic
          by_cases hassume : intrinsic = .assume
          · subst hassume
            refine final_assume hR.toQuiet name dest c.typeArgs ?_
            rintro arg list m2 rfl hread
            exact h ⟨hpending, hlimit, f, c, name, arg, dest, m1, list, m2, by rw [hstack]; rfl, hc,
              hname, hintrinsic, hfound, hnone, hread⟩
          · exact hR.callIntrinsic ⟨fun _ _ => hany _, fun _ _ => hany _, fun _ _ => hany _⟩
              (fun h => absurd h hassume) m1
        · exact hR.refl m1
      · exact hR.refl m1
    rw [hfinal]
    exact (along_false.1 (hR.stepFrame_final (fun t _ => hany t) hcall)).store.2

/-! ## Machines with a model -/

/-- Some input takes the path, and no error that is to come says otherwise. -/
structure Feasible (p : Program) (m : Machine) : Prop where
  sound : m.Sound p
  model : ∃ v, m.memory.store.Models v
  pending : ∀ e ∈ m.pending, e.kind ≠ .infeasiblePath

/-- However a step ends, some input still takes the path. -/
theorem Feasible.step_final (hm : m.Feasible p) (h : ¬ m.AssumesSymbolic) :
    ∃ v, (step.final m).memory.store.Models v := by
  obtain ⟨v, hv⟩ := hm.model
  obtain ⟨x, hx, -⟩ := hv.exists_input hm.sound.store
  have hextends := extends_step m
  have hstore := (hm.sound.extends hextends).store
  refine ⟨_, hstore.models (hextends.store.accepts_of_new hm.sound.store hx ?_)⟩
  rw [path_of_known h, drop_length]
  simp

theorem ForksAt.pending_taken {bs : List Branch} {d : Decision} {list : List Cell}
    (h : m.ForksAt bs d list) (hm : m.pending = none) {b : Branch} (hb : b ∈ bs) :
    ∀ e ∈ (m.taken b).pending, e.kind ≠ .infeasiblePath := by
  rw [h.branches] at hb
  have hnext : (∃ block, b.next = .goto block) ∨ ∃ message, b.next = .fail (.panic message) := by
    have hmem := mem_of_mem_filter hb
    cases d with
    | switch kind values targets otherwise =>
      rcases mem_append.1 hmem with hmem | hmem
      · obtain ⟨x, -, rfl⟩ := mem_map.1 hmem
        exact .inl ⟨_, rfl⟩
      · rw [mem_singleton.1 hmem]
        exact .inl ⟨_, rfl⟩
    | assert expected target message =>
      simp only [Decision.branches, mem_cons, not_mem_nil, or_false] at hmem
      rcases hmem with rfl | rfl
      · exact .inl ⟨_, rfl⟩
      · exact .inr ⟨_, rfl⟩
  unfold taken
  rcases hnext with ⟨block, hnext⟩ | ⟨message, hnext⟩
  · rw [hnext]
    have hmoved (m : Machine) : ((goto block).final m).pending = m.pending :=
      ((steady_closed (P := False) grows_composes
        fun _ _ => grows_derives).goto block m).pending
    simp [hmoved, hm]
  · rw [hnext]
    simp [EvalError.kind]

theorem Feasible.leads (hm : m.Feasible p) (h : ¬ m.AssumesSymbolic) (hleads : m.Leads m') :
    m'.Feasible p := by
  have hsound := hm.sound.extends hleads.extends
  have hmodel := hm.step_final h
  cases hleads with
  | advance hstep =>
    rw [final_of_ok hstep] at hmodel
    exact ⟨hsound, hmodel, by simp [pending_of_ok hstep]⟩
  | @take bs b m1 _ hstep hb hbranch =>
    obtain ⟨f, block, -, -, -, d, list, -, hrun⟩ := fork_cases hstep
    have hforks := forksAt_of_run hrun
    obtain ⟨rfl, -⟩ := taken_of_branch hforks hb hbranch
    refine ⟨hsound, ?_, hforks.pending_taken (pending_of_ok hstep) hb⟩
    -- the branch was kept because some input takes it
    have hfeasible : m1.memory.store.feasible [b.condition] := by
      rw [hforks.branches] at hb
      exact (mem_filter.1 hb).2
    obtain ⟨x, hx⟩ := feasible_iff.1 hfeasible
    refine ⟨_, hsound.store.models (x := x) ?_⟩
    rw [store_taken, accepts_push]
    exact accepts_one.1 hx

theorem Feasible.kind_of_error (hm : m.Feasible p) {e : EvalError}
    (h : step m = .error (.error e) m') : e.kind ≠ .infeasiblePath := by
  obtain ⟨c, h, hc⟩ := written_eq_error.1 h
  obtain ⟨rfl, -⟩ := written_eq_local.1 hc
  cases hpending : m.pending with
  | some e' =>
    rw [attempt_of_pending hpending] at h
    cases h
    exact hm.pending e hpending
  | none =>
    cases hstack : m.stack with
    | nil =>
      rw [attempt_of_empty hpending hstack] at h
      cases h
    | cons f rest =>
      rw [attempt_of_frame hpending hstack] at h
      have hraises : Raises (fun e => e.kind ≠ .infeasiblePath) (stepFrame f) :=
        raises_stepFrame (fun _ h => h) f
      split at h
      · have hlimit : Raises (σ := Machine) (α := StepResult) (fun e => e.kind ≠ .infeasiblePath)
            (Run.failReporting [m.limits.steps] (.stepLimit m.limits.steps)) := by
          refine Raises.failReporting ?_ _ rfl
          exact AdmitsFeasible.admits fun _ h => h
        exact hlimit _ _ _ h
      · exact hraises _ _ _ h

theorem Feasible.fork_ne_nil (hm : m.Feasible p) (hp : p.Balanced) (h : ¬ m.AssumesSymbolic)
    {bs : List Branch} (hstep : step m = .ok (.fork bs) m') : bs ≠ [] := by
  obtain ⟨d, list, hforks, hd⟩ := hm.sound.forksAt hp hstep
  have hfinal := hm.sound.extends (extends_step m)
  obtain ⟨v, hv⟩ := hm.step_final h
  rw [final_of_ok hstep] at hfinal hv
  obtain ⟨b, hb, -⟩ := hforks.exists_branch hd hfinal.store hv
  exact ne_nil_of_mem hb

/-! ## Reports -/

theorem Ends.cases (h : m.Ends length r) :
    (∃ e m', step m = .error (.error e) m' ∧ r = m'.failureReport length e) ∨
    (∃ m', step m = .ok (.fork []) m' ∧ r = m'.failureReport length .noBranch) ∨
    ∃ m', step m = .ok .done m' ∧ m'.successReport length = .ok r := by
  unfold Ends expand at h
  split at h
  · rename_i e m' hstep
    obtain h | ⟨⟨⟩⟩ | h := h
    · cases h
    · exact .inl ⟨e, m', hstep, rfl⟩
    · cases h
  · rcases h with h | h | h <;> cases h
  · rcases h with h | h | h <;> cases h
  · rename_i m' hstep
    obtain h | h | ⟨⟨⟩⟩ := h
    · cases h
    · cases h
    · exact .inr (.inl ⟨m', hstep, rfl⟩)
  · split at h <;> rcases h with h | h | h <;> cases h
  · rename_i m' hstep
    split at h
    · rename_i report hreport
      obtain ⟨⟨⟩⟩ | h | h := h
      · exact .inr (.inr ⟨m', hstep, hreport⟩)
      · cases h
      · cases h
    · rcases h with h | h | h <;> cases h

theorem successReport_eq (h : m.successReport length = .ok r) {x : List (BitVec 8)}
    (hx : m.leastInput length = .ok x) : r.input = x ∧ r.outcome = .success := by
  unfold successReport at h
  rw [hx] at h
  obtain ⟨memory, -, ⟨⟩⟩ := bind_iff.1 h
  exact ⟨rfl, rfl⟩

theorem Ends.input_eq (h : m.Ends length r) {x : List (BitVec 8)}
    (hx : (step.final m).leastInput length = .ok x) : r.input = x := by
  rcases h.cases with ⟨e, m', hstep, rfl⟩ | ⟨m', hstep, rfl⟩ | ⟨m', hstep, hreport⟩
  · rw [final_of_error hstep] at hx
    simp [failureReport, hx, Except.toOption]
  · rw [final_of_ok hstep] at hx
    simp [failureReport, hx, Except.toOption]
  · rw [final_of_ok hstep] at hx
    exact (successReport_eq hreport hx).1

theorem Feasible.input_ofMain (hm : m.Feasible p) (hmodel : ∃ v, (step.final m).memory.store.Models v)
    (hends : m.Ends none r) :
    ∃ v, (step.final m).memory.store.Models v ∧
      r.input = (step.final m).memory.store.inputs.map v := by
  have hstore := (hm.sound.extends (extends_step m)).store
  obtain ⟨x, v, hx, hlength, hv, hinput⟩ := assignment_prefix (Nat.le_refl _) hstore hmodel
  refine ⟨v, hv, ?_⟩
  rw [hends.input_eq hx]
  exact hinput.eq_of_length (by rw [hlength, length_map, length_inputs])

/-- Where a number of bytes is reported, they are the first ones of a model. -/
theorem Feasible.input_ofLength (hm : m.Feasible p) (hmodel : ∃ v, (step.final m).memory.store.Models v)
    {length : Int} (hends : m.Ends (some length) r) (hcount : length.toNat ≤ m.memory.store.inputCount) :
    ∃ v, (step.final m).memory.store.Models v ∧ (0 ≤ length →
      r.input <+: (step.final m).memory.store.inputs.map v ∧ (r.input.length : Int) = length) := by
  have hextends := extends_step m
  have hcount' := hcount.trans hextends.store.inputCount_le
  obtain ⟨x, v, hx, hlength, hv, hinput⟩ :=
    assignment_prefix hcount' (hm.sound.extends hextends).store hmodel
  refine ⟨v, hv, fun hnonneg => ?_⟩
  rw [Int.toNat_of_nonneg hnonneg] at hx
  rw [hends.input_eq hx]
  exact ⟨hinput, by omega⟩

theorem Feasible.kind_of_ends (hm : m.Feasible p) (hp : p.Balanced) (h : ¬ m.AssumesSymbolic)
    (hends : m.Ends length r) {e : EvalError} {stack : List String} (he : r.outcome = .failure e stack) :
    e.kind ≠ .infeasiblePath := by
  rcases hends.cases with ⟨e', m', hstep, rfl⟩ | ⟨m', hstep, rfl⟩ | ⟨m', hstep, hreport⟩
  · cases he
    exact hm.kind_of_error hstep
  · exact absurd rfl (hm.fork_ne_nil hp h hstep)
  · have hstore := (hm.sound.extends (extends_step m)).store
    have hmodel := hm.step_final h
    rw [final_of_ok hstep] at hstore hmodel
    obtain ⟨x, hx⟩ := (assignment_isOk_iff hstore _).2 (.inr hmodel)
    rw [(successReport_eq hreport hx).2] at he
    cases he

theorem Feasible.expand_ne_deadEnd (hm : m.Feasible p) (hp : p.Balanced) (h : ¬ m.AssumesSymbolic)
    (length : Option Int) (r : Report) : m.expand length ≠ .deadEnd r := by
  intro hexpand
  unfold expand at hexpand
  split at hexpand
  · cases hexpand
  · cases hexpand
  · cases hexpand
  · rename_i m' hstep
    exact hm.fork_ne_nil hp h hstep rfl
  · split at hexpand <;> cases hexpand
  · split at hexpand <;> cases hexpand

end Machine

/-! ## Exploration -/

theorem Exploration.infeasibleForks_absorb {x y : Exploration} {most length : Option Int}
    {m : Machine} {ms : List Machine} (hforks : ∀ r, m.expand length ≠ .deadEnd r)
    (h : x.absorb most (m.expand length) = (y, ms)) :
    y.stats.infeasibleForks = x.stats.infeasibleForks := by
  cases hexpand : m.expand length with
  | further forked ms' =>
    rw [hexpand] at h
    cases h
    cases forked <;> rfl
  | deadEnd r => exact absurd hexpand (hforks r)
  | returned r | failed r | fault cause =>
    rw [hexpand] at h
    cases h
    rfl

namespace Target

variable {program : Program} {name : String} {config : Config} {t : Target} {most : Option Int}

/-- The input bytes that are reported were made at the start. -/
theorem Reaches.inputCount_le (ht : ofSymbolic program name config = .ok t) {m : Machine}
    (h : t.Reaches m) : config.inputLength.toNat ≤ m.memory.store.inputCount := by
  induction h with
  | refl =>
    rw [(develops_start ht).inputs]
    exact Nat.le_refl _
  | tail _ hleads ih => exact ih.trans hleads.extends.store.inputCount_le

/-- What exploration has come to is feasible: the machines in the queue are, and so were those whose
paths have ended. -/
structure Sensible (t : Target) (most : Option Int) (p : Program) (q : List Machine)
    (x : Exploration) : Prop where
  queue : ∀ m ∈ q, m.Feasible p
  reports : ∀ r ∈ x.reports, ∃ m, t.Steps most m ∧ m.Feasible p ∧ m.Ends t.inputLength r
  forks : p.Balanced → x.stats.infeasibleForks = 0

theorem Meets.sensible (hfresh : Fresh program t.start)
    (hassume : ∀ m, t.Steps most m → ¬ m.AssumesSymbolic) {q : List Machine} {x : Exploration}
    (h : t.Meets most q x) : t.Sensible most program q x := by
  refine h.invariant (P := t.Sensible most program) ?_ fun m q x y ms hsteps hx habsorb => ?_
  · have haccepts : t.start.memory.store.accepts [] (fun _ => 0) = true := by
      simp [accepts, hfresh.path]
    refine ⟨fun m hm => ?_, by simp, fun _ => rfl⟩
    rw [mem_singleton.1 hm]
    exact ⟨hfresh.sound, ⟨_, hfresh.sound.store.models haccepts⟩, by simp [hfresh.pending]⟩
  · have hm := hx.queue m mem_cons_self
    have hrest : ∀ m' ∈ q, m'.Feasible program := fun m' hm' =>
      hx.queue m' (mem_cons_of_mem m hm')
    have hforks (hp : program.Balanced) : y.stats.infeasibleForks = 0 :=
      (Exploration.infeasibleForks_absorb (hm.expand_ne_deadEnd hp (hassume m hsteps) _) habsorb).trans
        (hx.forks hp)
    rcases Exploration.absorb_cases habsorb with ⟨hms, hy⟩ | ⟨rfl, r, hends, hy⟩ | ⟨rfl, hy, -⟩
    · refine ⟨fun m' hm' => ?_, hy ▸ hx.reports, hforks⟩
      rcases mem_append.1 hm' with hm' | hm'
      · exact hrest m' hm'
      · exact hm.leads (hassume m hsteps) (hms.leads hm')
    · refine ⟨by simpa using hrest, fun r' hr' => ?_, hforks⟩
      rw [hy] at hr'
      rcases mem_append.1 hr' with hr' | hr'
      · exact hx.reports r' hr'
      · rw [mem_singleton.1 hr']
        exact ⟨m, hsteps, hm, hends⟩
    · exact ⟨by simpa using hrest, hy ▸ hx.reports, hforks⟩

end Target

/-- A program that calls nothing assumes nothing. -/
theorem Target.Steps.not_assumesSymbolic {program : Program} {t : Target} {most : Option Int} {m : Machine}
    (hsteps : t.Steps most m) (hfresh : Fresh program t.start)
    (hcalls : ∀ f ∈ program.functions, ∀ b ∈ f.blocks, ∀ c, b.terminator ≠ .call c) :
    ¬ m.AssumesSymbolic := by
  rintro ⟨-, -, f, c, -, -, -, -, -, -, hf, hc, -⟩
  obtain ⟨name, hname⟩ := (hsteps.reaches.sound hfresh).functions f (mem_of_mem_head? hf)
  obtain ⟨b, hblock, hterm⟩ := Machine.of_nextCall? hc
  exact hcalls _ (mem_of_find?_eq_some hname) b (Machine.mem_of_blockOf hblock) c hterm

namespace Untargeted

/-- All numbers of a byte. -/
def values : List Int := (range 256).map Int.ofNat

/-- A function that compares its first byte with all numbers, none of which has a target. -/
def function : Function := { Sample.function [] with
  blocks := [⟨[], .switch (.copy ⟨1, [.deref, .constIndex 0]⟩) values [] 1⟩, ⟨[], .ret⟩] }

def program : Program := ⟨[function]⟩

def target : Target where
  start := { (Sample.target []).start with
    program := program
    stack := [{ function := function, locals := [.known 2 0, .known 3 0] }] }
  inputLength := some 1

theorem ofSymbolic_program : Target.ofSymbolic program "f" Sample.config = .ok target := by
  rfl

/-- The byte is one of the numbers, so no input takes the branch that is left. -/
theorem fork_start : Machine.step target.start = .ok (.fork []) target.start.counted := by
  let branches := (Decision.switch .u8 values [] 1).branches [.symbol 0]
  have hfeasible : Machine.feasibleOnly Sample.memory.store branches = [] := by
    refine filter_eq_nil_iff.2 fun b hb hfeasible => ?_
    obtain ⟨input, haccepts⟩ := Store.feasible_iff.1 hfeasible
    rw [mem_singleton.1 hb] at haccepts
    simp only [accepts, all_append, all_cons, all_nil, Term.holds_all, all_map, Bool.and_eq_true,
      all_eq_true, Function.comp_apply, Term.holds_not, Bool.not_eq_true', and_true] at haccepts
    have hbyte := Cell.valueOf_lt (Sample.memory.store.valuation input) [.symbol 0]
    have hlisted := haccepts.2 _ (mem_map_of_mem (mem_range.2 hbyte))
    exact Bool.false_ne_true
      (hlisted.symm.trans (Decision.holds_isNumber.2 (BitVec.ofInt_natCast _ _)))
  have hstep : Machine.step target.start =
      .ok (.fork (Machine.feasibleOnly Sample.memory.store branches)) target.start.counted := by
    set_option maxRecDepth 4000 in rfl
  rwa [hfeasible] at hstep

end Untargeted

end SymExec

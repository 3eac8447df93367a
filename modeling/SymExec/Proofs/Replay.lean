import SymExec.Proofs.Mirror.Step
import Mathlib.Data.List.Chain

/-!
# Replay

A path that returns is reported with an input. Started again with this input in the place of the
symbolic bytes, the program goes the same way: step by step it stands where the path stands, it never
forks, and it returns (`Machine.Retraces`). The exceptions are steps that treat known bytes in
another way than symbolic ones: the program then stops with an error that only known bytes can have
(`Machine.Omits`), or may go on elsewhere (`Machine.Departs`).
-/
namespace SymExec

open Run List Machine

/-- No function calls the builtin that makes bytes symbolic. -/
def Program.KeepsInput (p : Program) : Prop :=
  ∀ f ∈ p.functions, ∀ b ∈ f.blocks, ∀ c, b.terminator = .call c →
    Builtin.ofName? c.callee ≠ some .makeSymbolic

theorem Program.KeepsInput.nextCall {p : Program} (hp : p.KeepsInput) {f : Frame} {name : Json}
    (hf : p.find? name = some f.function) {c : Call} (hc : nextCall? f = some c) :
    Builtin.ofName? c.callee ≠ some .makeSymbolic := by
  unfold nextCall? at hc
  split at hc
  · rename_i b hblock
    split at hc
    · rename_i hterm
      cases hc
      exact hp _ (mem_of_find?_eq_some hf) b (mem_of_blockOf hblock) _ hterm
    · cases hc
  · cases hc

namespace Machine

variable {last : Machine} {ms : List Machine}

/-- The errors that the next step can have on known bytes alone. -/
def Omits (m : Machine) (e : EvalError) : Prop := ∃ f, m.stack.head? = some f ∧ f.Omits e

/-- The next step is one after which known bytes may be elsewhere. -/
def Departs (v : Valuation) (m : Machine) : Prop :=
  ∃ f, m.stack.head? = some f ∧ f.Departs v m.counted

/-- A run on known bytes keeps to the machines of a path: it stands where they stand and returns
where the last one returns, unless a step treats known bytes in another way. -/
inductive Retraces (v : Valuation) : Machine → List Machine → Prop where
  | returns {g g' m : Machine} (hposition : g.positions = m.positions)
    (hstep : step g = .ok .done g') : Retraces v g [m]
  | advances {g g' m m' : Machine} {ms : List Machine} (hposition : g.positions = m.positions)
    (hstep : step g = .ok .advance g') (hrest : Retraces v g' (m' :: ms)) :
    Retraces v g (m :: m' :: ms)
  | fails {g g' m : Machine} {ms : List Machine} {e : EvalError}
    (hposition : g.positions = m.positions) (hstep : step g = .error (.error e) g')
    (homits : m.Omits e) : Retraces v g (m :: ms)
  | departs {g m : Machine} {ms : List Machine} (hposition : g.positions = m.positions)
    (hdeparts : m.Departs v) : Retraces v g (m :: ms)

/-! ## One step -/

/-- The next step makes no bytes symbolic. -/
def KeepsInput (m : Machine) : Prop :=
  ∀ f ∈ m.stack.head?, ∀ c, nextCall? f = some c → Builtin.ofName? c.callee ≠ some .makeSymbolic

/-- What the invariants of a path say of one of its machines. -/
structure Replayable (p : Program) (m : Machine) : Prop where
  sound : m.Sound p
  ordered : m.memory.Ordered

variable {v : Valuation} {s0 : Store} {p : Program} {m m' : Machine}

theorem Replayable.keepsInput (hm : m.Replayable p) (hinput : p.KeepsInput) : m.KeepsInput := by
  intro f hf c hc
  obtain ⟨name, hname⟩ := hm.sound.functions f (mem_of_mem_head? hf)
  exact hinput.nextCall hname hc

/-- A step on known bytes does what a step on symbolic bytes and the branch that is taken do. -/
theorem mirrors_step (v : Valuation) (s0 : Store) (hp : p.Balanced) (hinput : m.KeepsInput) (hm : m.Replayable p)
    (hpending : m.pending = none) (i : Nat) :
    Mirrors (view v s0) m.Omits (m.Departs v) Eq (step >>= choose i) step m := by
  cases hstack : m.stack with
  | nil =>
    have hground : step (m.ground v s0) = .ok .done (m.ground v s0) :=
      step_of_empty hpending (by simp [ground, hstack])
    intro r m' hok
    rw [bind_of_ok (step_of_empty hpending hstack)] at hok
    cases hok
    exact ⟨Store.develops_composes.refl _, ⟨_, rfl⟩, fun _ => .inl ⟨_, rfl, hground⟩⟩
  | cons f rest =>
    obtain ⟨name, hname⟩ := hm.sound.functions f (by simp [hstack])
    have hframe : Mirrors (view v s0) f.Omits (f.Departs v m.counted) Eq (stepFrame f >>= choose i)
        (stepFrame (f.ground v)) m.counted :=
      mirrors_stepFrame f (hp.find? hname) i hm.ordered (hinput f (by simp [hstack]))
    have hstep := step_of_frame hpending hstack
    have hstack' : (m.ground v s0).stack = f.ground v :: rest.map (Frame.ground v) := by
      simp [ground, hstack]
    have hground := step_of_frame (m := m.ground v s0) hpending hstack'
    have hlimits : (m.ground v s0).limits = m.limits := rfl
    have hsteps : (m.ground v s0).steps = m.steps := rfl
    rw [hlimits, hsteps] at hground
    split at hstep
    · rw [failReporting_apply] at hstep
      exact .of_error (bind_of_error hstep)
    · rename_i hlimit
      rw [if_neg hlimit] at hground
      intro r m' hok
      obtain ⟨r1, m1, hfirst, hchoose⟩ := bind_eq_ok.1 hok
      rw [hstep] at hfirst
      obtain ⟨hdevelops, hresult, hmirrors⟩ :=
        hframe r m' (bind_eq_ok.2 ⟨r1, m1, written_eq_ok.1 hfirst, hchoose⟩)
      refine ⟨hdevelops, hresult, fun hv => ?_⟩
      have hcounted : step ((view v s0).ground m)
          = Run.written (stepFrame (f.ground v)) ((view v s0).ground m.counted) := hground
      rw [hcounted]
      obtain ⟨r', hr', hsame⟩ | ⟨e, c, herror, homits⟩ | hdeparts := hmirrors hv
      · exact .inl ⟨r', hr', written_eq_ok.2 hsame⟩
      · have hwritten := written_eq_local.2 ⟨rfl, homits.fault?_eq_none⟩
        exact .inr (.inl ⟨e, c, written_eq_error.2 ⟨_, herror, hwritten⟩, f, by simp [hstack], homits⟩)
      · exact .inr (.inr ⟨f, by simp [hstack], hdeparts⟩)

/-! ## Paths -/

theorem Leads.pending (h : m.Leads m') : m.pending = none := by
  cases h with
  | advance h | take h _ _ => exact pending_of_step h

/-- A machine that goes on without an error was led to by a step and a branch to a block. -/
theorem Leads.exists_choose (h : m.Leads m') (hpending : m'.pending = none) :
    ∃ i, (step >>= choose i) m = .ok .advance m' := by
  cases h with
  | advance h => exact ⟨0, bind_of_ok h⟩
  | @take bs b m1 _ h hb hm =>
    obtain ⟨f, _, -, -, -, d, list, -, hrun⟩ := fork_cases h
    obtain ⟨rfl, -⟩ := taken_of_branch (forksAt_of_run hrun) hb hm
    cases hnext : b.next with
    | goto block =>
      obtain ⟨i, hi⟩ := exists_choose hb hnext m1
      exact ⟨i, (bind_of_ok h).trans hi⟩
    | fail e =>
      unfold taken at hpending
      rw [hnext] at hpending
      cases hpending

theorem Replayable.leads (hm : m.Replayable p) (h : m.Leads m') : m'.Replayable p :=
  ⟨hm.sound.extends h.extends, h.invariant Memory.ordered_invariant hm.ordered⟩

/-- The machines of a path that returns go on without an error. -/
theorem pending_of_chain (hchain : (m :: ms).IsChain Leads) (hlast : (m :: ms).getLast? = some last)
    (hdone : step last = .ok .done m') : m.pending = none := by
  cases ms with
  | nil =>
    obtain rfl : m = last := by simpa using hlast
    exact pending_of_step hdone
  | cons m1 ms => exact (isChain_cons_cons.1 hchain).1.pending

theorem develops_of_chain (hp : p.Balanced) (hinput : p.KeepsInput) (hchain : (m :: ms).IsChain Leads)
    (hlast : (m :: ms).getLast? = some last) (hdone : step last = .ok .done m') (hm : m.Replayable p) :
    m.memory.store.Develops m'.memory.store := by
  have hdevelops {m m' : Machine} (hm : m.Replayable p) (hpending : m.pending = none) {i : Nat}
      {r : StepResult} (hstep : (step >>= choose i) m = .ok r m') :
      m.memory.store.Develops m'.memory.store :=
    (mirrors_step (fun _ => 0) {} hp (hm.keepsInput hinput) hm hpending i _ _ hstep).1
  induction ms generalizing m with
  | nil =>
    obtain rfl : m = last := by simpa using hlast
    have hstep : (step >>= choose 0) m = .ok .done m' := bind_of_ok hdone
    exact hdevelops hm (pending_of_step hdone) hstep
  | cons m1 ms ih =>
    obtain ⟨hleads, hrest⟩ := isChain_cons_cons.1 hchain
    have hlast1 : (m1 :: ms).getLast? = some last := by simpa using hlast
    obtain ⟨i, hstep⟩ := hleads.exists_choose (pending_of_chain hrest hlast1 hdone)
    exact Store.develops_composes.trans (hdevelops hm hleads.pending hstep)
      (ih hrest hlast1 (hm.leads hleads))

/-- Values that satisfy the store at the end of a path lead known bytes along the whole path. -/
theorem retraces_of_chain (hp : p.Balanced) (hinput : p.KeepsInput) (hchain : (m :: ms).IsChain Leads)
    (hlast : (m :: ms).getLast? = some last) (hdone : step last = .ok .done m')
    (hv : m'.memory.store.Models v) (hm : m.Replayable p) : Retraces v (m.ground v s0) (m :: ms) := by
  have hposition (m : Machine) := positions_ground v s0 m
  induction ms generalizing m with
  | nil =>
    obtain rfl : m = last := by simpa using hlast
    have hstep : (step >>= choose 0) m = .ok .done m' := bind_of_ok hdone
    obtain ⟨-, -, hmirrors⟩ :=
      mirrors_step v s0 hp (hm.keepsInput hinput) hm (pending_of_step hdone) 0 _ _ hstep
    obtain ⟨_, rfl, hground⟩ | ⟨e, g, herror, homits⟩ | hdeparts := hmirrors hv
    · exact .returns (hposition m) hground
    · exact .fails (hposition m) herror homits
    · exact .departs (hposition m) hdeparts
  | cons m1 ms ih =>
    obtain ⟨hleads, hrest⟩ := isChain_cons_cons.1 hchain
    have hlast1 : (m1 :: ms).getLast? = some last := by simpa using hlast
    have hm1 := hm.leads hleads
    have hdevelops := develops_of_chain hp hinput hrest hlast1 hdone hm1
    obtain ⟨i, hstep⟩ := hleads.exists_choose (pending_of_chain hrest hlast1 hdone)
    obtain ⟨-, -, hmirrors⟩ :=
      mirrors_step v s0 hp (hm.keepsInput hinput) hm hleads.pending i _ _ hstep
    obtain ⟨_, rfl, hground⟩ | ⟨e, g, herror, homits⟩ | hdeparts :=
      hmirrors (hv.of_grows hdevelops.grows)
    · exact .advances (hposition m) hground (ih hrest hlast1 hm1)
    · exact .fails (hposition m) herror homits
    · exact .departs (hposition m) hdeparts

end Machine

/-! ## The start -/

namespace Target

variable {r : Report} {m : Machine} {length : Option Int}

/-- A function of one reference to bytes, started as with a symbolic buffer, except that the bytes of
the buffer are known. -/
def ofBytes (program : Program) (name : String) (config : Config) (bytes : List (BitVec 8)) :
    Except Failure Machine := do
  let f ← entry program name
  match bytesParam? f with
  | none => throw (.error .targetSignature)
  | some ty =>
    let length := config.inputLength
    started (machine program config) do
      let p ← onMemory (Memory.allocateAbstract length 8)
      onMemory (Memory.fillWith p.alloc (bytes.map Cell.known))
      modify fun m => { m with memory := { m.memory with root := some p.alloc } }
      pushFrame f [⟨.pair (.ptr p) (.ofInt length), ty⟩] none none

variable {program : Program} {name : String} {config : Config} {t : Target}

theorem replayable_ofSymbolic (h : ofSymbolic program name config = .ok t) :
    t.start.Replayable program :=
  ⟨(fresh_ofSymbolic h).sound, ordered_start (.inr h)⟩

/-- Pushing the entry frame does not depend on the bytes of the buffer. -/
theorem mirrors_entry (v : Valuation) (s0 : Store) (f : Function) (ty : Ty) (m : Machine) :
    Shadows (view v s0) (fun _ => False) False
      (pushFrame f [bufferRef config ty] none none)
      (pushFrame f [bufferRef config ty] none none) m := by
  have hargs : List.Forall₂ (Arg.Agrees v) [bufferRef config ty] [bufferRef config ty] :=
    .cons (.intro ty (.pair (.ptr _) (.ofInt _)) nofun) .nil
  exact mirrors_pushFrame f hargs none none

def inputStore (config : Config) : Store := { segments := [.input config.inputLength.toNat] }

theorem develops_start (h : ofSymbolic program name config = .ok t) :
    (inputStore config).Develops t.start.memory.store := by
  obtain ⟨f, ty, -, -, -, -, -, -, hpush⟩ := ofSymbolic_eq_ok h
  exact (mirrors_entry (fun _ => 0) {} f ty _ _ _ hpush).1

theorem ground_cellsFrom_zero {bytes : List (BitVec 8)} {v : Valuation}
    (h : ∀ k < bytes.length, v k = bytes.getD k 0) :
    (Store.cellsFrom 0 bytes.length).map (Cell.ground v) = bytes.map Cell.known := by
  refine ext_getElem (by simp [Store.cellsFrom]) fun k hk hk' => ?_
  have hlt : k < bytes.length := by simpa using hk'
  simp [Store.cellsFrom, Cell.ground, h k hlt, hlt]

/-- Under values of the input, the start with a symbolic buffer is the start with known bytes. -/
theorem ofBytes_ground (h : ofSymbolic program name config = .ok t) {bytes : List (BitVec 8)}
    (hlength : bytes.length = config.inputLength.toNat) {v : Valuation}
    (hv : t.start.memory.store.Models v) (hbytes : ∀ k < bytes.length, v k = bytes.getD k 0) :
    ofBytes program name config bytes = .ok (t.start.ground v (inputStore config)) := by
  obtain ⟨f, ty, m, hf, hty, -, hallocate, hbuffered, hpush⟩ := ofSymbolic_eq_ok h
  have hcells := ground_cellsFrom_zero hbytes
  rw [hlength] at hcells
  have hground : (buffered program config (Store.cellsFrom 0 config.inputLength.toNat)).ground v
      (inputStore config) = buffered program config (bytes.map Cell.known) := by
    simp [ground, Memory.ground, Allocation.ground, buffered, machine, inputStore, hcells]
  have hfilled : (do
      onMemory (Memory.fillWith 1 (bytes.map Cell.known))
      modify fun m => { m with memory := { m.memory with root := some 1 } } : Run Machine Unit) m
      = .ok () (buffered program config (bytes.map Cell.known)) := by
    obtain ⟨-, hm⟩ := allocateAbstract_machine hallocate
    have hmachine : m = { buffered program config (Store.cellsFrom 0 config.inputLength.toNat) with
        memory := { (buffered program config (Store.cellsFrom 0 config.inputLength.toNat)).memory
          with root := m.memory.root } } := by
      rw [← hm]
    rw [hmachine]
    simp [onMemory, Memory.fillWith, Memory.update, buffered, machine, modify_apply, bind,
      EStateM.bind, hlength]
  obtain ⟨-, -, hmirrors⟩ := mirrors_entry v (inputStore config) f ty _ _ _ hpush
  obtain ⟨u, -, hentry⟩ | ⟨_, _, _, hfalse⟩ | hfalse := hmirrors hv
  · have hpushed : pushFrame f [bufferRef config ty] none none
        (buffered program config (bytes.map Cell.known))
        = .ok () (t.start.ground v (inputStore config)) := by
      rw [← hground]
      exact hentry
    have hrest := (bind_of_ok (f := fun _ => pushFrame f [bufferRef config ty] none none)
      hfilled).trans hpushed
    rw [bind_assoc] at hrest
    refine bind_iff.2 ⟨f, lift_eq_ok.2 hf, ?_⟩
    simp only [hty]
    exact started_eq_ok.2 ((bind_of_ok hallocate).trans hrest)
  · exact hfalse.elim
  · exact hfalse.elim

/-! ## Paths that return -/

/-- The machines of a path, from the start to the one that returns with a report. -/
structure Path (t : Target) (ms : List Machine) (r : Report) : Prop where
  start : ms.head? = some t.start
  leads : ms.IsChain Machine.Leads
  returns : ∃ m, ms.getLast? = some m ∧ m.expand t.inputLength = .returned r

theorem done_of_returned (h : m.expand length = .returned r) :
    ∃ m', step m = .ok .done m' ∧ m'.successReport length = .ok r := by
  unfold expand at h
  split at h
  · cases h
  · cases h
  · cases h
  · cases h
  · split at h <;> cases h
  · rename_i m' hstep
    split at h
    · rename_i report hreport
      cases h
      exact ⟨m', hstep, hreport⟩
    · cases h

theorem successReport_eq_ok (h : m.successReport length = .ok r) (hsuccess : r.outcome = .success) :
    m.leastInput length = .ok r.input ∧
      ∃ memory, releaseRoot m.memory = .ok memory ∧ r.leaked = some memory.leaked := by
  unfold successReport at h
  split at h
  · cases h
    cases hsuccess
  · rename_i input hinput
    obtain ⟨memory, hmemory, ⟨⟩⟩ := bind_iff.1 h
    exact ⟨hinput, memory, hmemory, rfl⟩

theorem step_of_returned (h : m.expand length = .returned r) (hsuccess : r.outcome = .success) :
    ∃ m', step m = .ok .done m' ∧ m'.leastInput length = .ok r.input := by
  obtain ⟨m', hstep, hreport⟩ := done_of_returned h
  exact ⟨m', hstep, (successReport_eq_ok hreport hsuccess).1⟩

/-- The input of a report satisfies a store that has grown from the symbolic buffer alone. -/
theorem models_of_assignment {s : Store} {x : List (BitVec 8)} (hlength : 0 ≤ config.inputLength)
    (hs : (inputStore config).Develops s) (h : s.assignment config.inputLength = .ok x) :
    x.length = config.inputLength.toNat ∧ s.Models (s.valuation fun k => x.getD k 0) ∧
      ∀ k < x.length, s.valuation (fun k => x.getD k 0) k = x.getD k 0 := by
  obtain ⟨n, hn⟩ := Int.eq_ofNat_of_zero_le hlength
  have hstore : inputStore config = ({} : Store).extend [.input n] := by
    simp [inputStore, hn, Store.extend]
  have hwellFormed : s.WellFormed := by
    refine hs.grows.wellFormed ?_
    rw [hstore]
    exact (Store.grows_input _ n).wellFormed Store.wellFormed_empty
  have hmodels : x.length = n ∧ s.Models (s.valuation fun k => x.getD k 0) := by
    by_cases hzero : n = 0
    · -- Without input bytes the report is made unseen, but there is nothing to be satisfied.
      subst hzero
      have hempty : x = [] := by
        rw [hn] at h
        exact (Except.ok.inj h).symm
      have hsize : (inputStore config).size = 0 := by rw [hstore]; rfl
      refine ⟨by rw [hempty]; rfl, (hs.empty hsize).2 _ ⟨?_, ?_⟩⟩
      · rw [hstore, Store.definitions_extend_input]
        simp [Store.definitions, Store.placed]
      · simp [inputStore]
    · have hcount : s.inputCount = n := by
        rw [hs.inputs, hstore, Store.inputCount_extend_input]
        simp [Store.inputCount]
      rw [hn] at h
      obtain ⟨hxlength, haccepts⟩ := Store.accepts_of_assignment hcount hzero h
      exact ⟨hxlength, hwellFormed.models haccepts⟩
  obtain ⟨hxlength, hv⟩ := hmodels
  refine ⟨by omega, hv, fun k hk => ?_⟩
  have hinput := Store.valuation_input {} (fun k => x.getD k 0) (hxlength ▸ hk)
  simp only [Store.size, Store.inputCount, map_nil, filter_nil, sum_nil,
    Nat.zero_add] at hinput
  rw [← hinput, ← hstore]
  refine hs.grows.valuation _ ?_
  rw [hstore, Store.size_extend_one, ← hxlength]
  exact Nat.lt_add_left _ hk

theorem exists_reached (most : Option Int) (hsteps : t.start.steps = 0)
    (hr : r ∈ (t.explore most).reports) : ∃ m, t.Reaches m ∧ m.Ends t.inputLength r := by
  obtain ⟨q, hmeets⟩ := meets_explore most hsteps
  let P (x : Exploration) : Prop := ∀ r ∈ x.reports, ∃ m, t.Reaches m ∧ m.Ends t.inputLength r
  refine hmeets.invariant (P := fun _ x => P x) (by simp [P]) (fun m q x y ms hm hx habsorb => ?_) r hr
  rcases Exploration.absorb_cases habsorb with ⟨-, hy⟩ | ⟨-, r', hends, hy⟩ | ⟨-, hy, -⟩
  · exact fun r hr => hx r (hy ▸ hr)
  · intro r hr
    rw [hy, mem_append, mem_singleton] at hr
    rcases hr with hr | rfl
    · exact hx r hr
    · exact ⟨m, hm.reaches, hends⟩
  · exact fun r hr => hx r (hy ▸ hr)

/-- Only a path that returns can succeed. -/
theorem outcome_ne_success (h : m.expand length = .failed r ∨ m.expand length = .deadEnd r) :
    r.outcome ≠ .success := by
  unfold expand at h
  split at h
  · obtain ⟨⟨⟩⟩ | h := h
    · exact nofun
    · cases h
  · rcases h with h | h <;> cases h
  · rcases h with h | h <;> cases h
  · obtain h | ⟨⟨⟩⟩ := h
    · cases h
    · exact nofun
  · split at h <;> rcases h with h | h <;> cases h
  · split at h <;> rcases h with h | h <;> cases h

theorem exists_path (most : Option Int) (hsteps : t.start.steps = 0) (hr : r ∈ (t.explore most).reports)
    (hsuccess : r.outcome = .success) : ∃ ms, t.Path ms r := by
  obtain ⟨m, hreaches, hends⟩ := exists_reached most hsteps hr
  obtain ⟨ms, hchain, hlast⟩ := exists_isChain_cons_of_relationReflTransGen hreaches
  refine ⟨t.start :: ms, rfl, hchain, m, ?_, ?_⟩
  · rw [getLast?_eq_getLast_of_ne_nil (cons_ne_nil _ _), hlast]
  · rcases hends with hreturned | hother
    · exact hreturned
    · exact absurd hsuccess (outcome_ne_success hother)

/-- The input of a path that returns is as long as the buffer, and with its bytes in the buffer the
program retraces every path that returns with this report. -/
theorem success_retraced {raw : Json} {strict : Bool} (hload : Program.load raw strict = .ok program)
    (hinput : program.KeepsInput) (hlength : 0 ≤ config.inputLength)
    (ht : ofSymbolic program name config = .ok t) (most : Option Int) {r : Report}
    (hr : r ∈ (t.explore most).reports) (hsuccess : r.outcome = .success) :
    r.input.length = config.inputLength.toNat ∧ (∃ ms, t.Path ms r) ∧
    ∃ g, ofBytes program name config r.input = .ok g ∧
      ∀ ms, t.Path ms r → ∃ last, ms.getLast? = some last ∧
        let s := (Machine.step.final last).memory.store
        let v := s.valuation fun k => r.input.getD k 0
        s.Models v ∧ Machine.Retraces v g ms := by
  have hp := Program.balanced_of_load hload
  have hpath (ms : List Machine) (hms : t.Path ms r) : ∃ last, ms.getLast? = some last ∧
      let s := (step.final last).memory.store
      let v := s.valuation fun k => r.input.getD k 0
      r.input.length = config.inputLength.toNat ∧ s.Models v ∧
        ofBytes program name config r.input = .ok (t.start.ground v (inputStore config)) ∧
        Machine.Retraces v (t.start.ground v (inputStore config)) ms := by
    obtain ⟨hhead, hchain, last, hlast, hexpand⟩ := hms
    obtain ⟨ms, rfl⟩ : ∃ rest, ms = t.start :: rest := head?_eq_some_iff.1 hhead
    refine ⟨last, hlast, ?_⟩
    obtain ⟨-, -, -, -, -, hinputLength, -, -, -⟩ := ofSymbolic_eq_ok ht
    obtain ⟨m', hdone, hassignment⟩ := step_of_returned hexpand hsuccess
    rw [final_of_ok hdone]
    rw [hinputLength] at hassignment
    have hstart := replayable_ofSymbolic ht
    have hdevelops := develops_of_chain hp hinput hchain hlast hdone hstart
    obtain ⟨hinputs, hv, hbytes⟩ := models_of_assignment hlength
      (Store.develops_composes.trans (develops_start ht) hdevelops) hassignment
    refine ⟨hinputs, hv, ?_, ?_⟩
    · exact ofBytes_ground ht hinputs (hv.of_grows hdevelops.grows) hbytes
    · exact retraces_of_chain hp hinput hchain hlast hdone hv hstart
  obtain ⟨ms, hms⟩ := exists_path most (fresh_ofSymbolic ht).steps hr hsuccess
  obtain ⟨_, -, hinputs, -, hbytes, -⟩ := hpath ms hms
  refine ⟨hinputs, ⟨ms, hms⟩, _, hbytes, fun ms' hms' => ?_⟩
  obtain ⟨last, hlast, -, hv, hbytes', hretraces⟩ := hpath ms' hms'
  refine ⟨last, hlast, hv, ?_⟩
  rw [hbytes] at hbytes'
  rwa [Except.ok.inj hbytes']

end Target

namespace Sample

theorem keepsInput (values : List Int) : (program values).KeepsInput := by
  intro f hf b hb c hc
  obtain rfl := mem_singleton.1 hf
  simp only [function, mem_cons, not_mem_nil, or_false] at hb
  rcases hb with rfl | rfl <;> cases hc

/-- The path on which the first byte is not the number. -/
theorem expand_otherwise : (taken [7] (.not (Decision.isNumber .u8 [.symbol 0] 7))).expand (some 1)
    = .returned ⟨[0], .success, some 0⟩ := by
  rfl

theorem mem_reports : ⟨[0], .success, some 0⟩ ∈ ((target [7]).explore none).reports := by
  obtain ⟨r, hr⟩ := expand_taken [7] (Decision.isNumber .u8 [.symbol 0] 7)
  have hexplore : (target [7]).explore none =
      Exploration.loop (some 1) none 10 [(target [7]).start] [] {} := rfl
  rw [hexplore]
  simp [Exploration.loop, expand_start, hr, expand_otherwise, Exploration.absorb,
    Exploration.halted, Exploration.countFork, Exploration.countStep, Exploration.deliver,
    Exploration.wanted]

end Sample

theorem Target.success_retraced_sample :
    Program.load (Sample.raw [.int 7]) true = .ok (Sample.program [7]) ∧
    (Sample.program [7]).KeepsInput ∧
    ofSymbolic (Sample.program [7]) "f" Sample.config = .ok (Sample.target [7]) ∧
    ⟨[0], .success, some 0⟩ ∈ ((Sample.target [7]).explore none).reports ∧
    (∃ ms, (Sample.target [7]).Path ms ⟨[0], .success, some 0⟩) ∧
    ∃ g, ofBytes (Sample.program [7]) "f" Sample.config [0] = .ok g ∧
      ∀ ms, (Sample.target [7]).Path ms ⟨[0], .success, some 0⟩ →
        ∃ last, ms.getLast? = some last ∧
          let s := (Machine.step.final last).memory.store
          let v := s.valuation fun k => [0].getD k 0
          s.Models v ∧ Machine.Retraces v g ms := by
  have hload : Program.load (Sample.raw [.int 7]) true = .ok (Sample.program [7]) := by rfl
  have hinput := Sample.keepsInput [7]
  have hstart := Sample.ofSymbolic_program [7]
  refine ⟨hload, hinput, hstart, Sample.mem_reports, ?_⟩
  exact (success_retraced hload hinput (by decide) hstart none Sample.mem_reports rfl).2

end SymExec

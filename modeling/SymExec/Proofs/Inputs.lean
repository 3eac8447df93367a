import SymExec.Proofs.Excerpt
import SymExec.Proofs.Feasible
import SymExec.Proofs.Leak
import SymExec.Proofs.Refusal
import SymExec.Proofs.Termination

/-!
# Input bytes of a whole program

Only calls of `mksym` add input bytes. Such a call first takes the bytes and then writes them to memory, so
bytes are also taken where memory refuses them; the step then fails, and the path ends (`Machine.lost`). The
least input of a whole program is as long as the bytes that calls have made symbolic (`Machine.made`),
together with those that the last step has lost (`Target.input_length_eq`).
-/
namespace SymExec

open Run List Machine Memory

variable {r : Report} {last : Machine} {e : EvalError} {ms : List Machine}

/-! ## Stores -/

namespace Store

def KeepsInputs (s s' : Store) : Prop := s'.inputCount = s.inputCount

theorem keepsInputs_composes : Composes KeepsInputs := ⟨fun _ => rfl, fun h h' => h'.trans h⟩

theorem keepsInputs_derives {s s' : Store} (h : s.Derives s') : s.KeepsInputs s' := by
  induction h with
  | refl => rfl
  | tail _ hstep ih =>
    obtain ⟨n, t, -, -⟩ := hstep
    exact (inputCount_extend_derived _ n t).trans ih

theorem keepsInputs_push (s : Store) (c : Condition) : s.KeepsInputs (s.push c) := rfl

end Store

/-! ## Memory -/

namespace Memory

variable {m m' : Memory} {p : Pointer} {size : Int} {align : Int} {cells : List Cell}

def Holds (m : Memory) (p : Pointer) (cells : List Cell) : Prop :=
  ∃ id offset a, p = .known id offset ∧ m.find? id = some a ∧
    Section.slice a.cells offset (offset + cells.length) = cells

/-- Bytes that are written are found again. -/
theorem holds_writeBytes (hcells : cells ≠ []) (h : writeBytes p cells align m = .ok () m') :
    m'.Holds p cells := by
  obtain ⟨id, offset, a, hchecked, rfl⟩ := writeBytes_eq_ok hcells h
  obtain ⟨hp, hfind, hle⟩ := checked_eq_ok hchecked
  have hle : offset + cells.length ≤ a.size := by omega
  refine ⟨id, offset, a.write offset cells, hp, ?_, Section.slice_splice hle⟩
  rw [find?_update, hfind, Option.map_some, if_pos rfl]

/-- Where bytes are made symbolic, memory holds the newest input bytes. -/
theorem holds_makeSymbolic (hpos : 0 < size) (h : makeSymbolic p size m = .ok () m') :
    m'.Holds p (Store.cellsFrom m.store.size size.toNat) := by
  refine holds_writeBytes ?_ (show writeBytes p _ 1 { m with store := m.store.extend [.input size.toNat] }
    = .ok () m' from h)
  rw [Ne, ← length_eq_zero_iff]
  simp [Store.cellsFrom]
  omega

end Memory

namespace Machine

variable {m m' : Machine} {p : Pointer} {size : Int} {b : Builtin}

/-! ## Requests -/

/-- The type that a call of `mksym` makes symbolic: the one that it names, or what it points to. -/
def symbolicTy (typeArgs : List Ty) (target : Arg) : Except Failure Ty :=
  match typeArgs with
  | ty :: _ => .ok ty
  | [] => target.ty.pointee

/-- The place and the number of the bytes that a call of `mksym` asks for. -/
def symbolicRange (typeArgs : List Ty) (args : List Arg) : Run Machine (Pointer × Int) := do
  match args with
  | [target] =>
    let ty ← symbolicTy typeArgs target
    let p ← (← readArg target).toPtr
    let size ← ty.size
    return (p, size)
  | args => Run.fail (.arity (.str Builtin.makeSymbolic.name) 1 args.length)

theorem callBuiltin_makeSymbolic (args : List Arg) (dest : Option PlaceRef) (typeArgs : List Ty) :
    callBuiltin .makeSymbolic args dest typeArgs
      = symbolicRange typeArgs args >>= fun x => onMemory (makeSymbolic x.1 x.2) := by
  rcases args with _ | ⟨target, _ | ⟨other, args⟩⟩
  · rfl
  · simp only [symbolicRange, bind_assoc, pure_bind]
    cases typeArgs <;> rfl
  · rfl

theorem Quiet.symbolicRange {P : Prop} {R : Machine → Machine → Prop} (hR : Quiet P R)
    (typeArgs : List Ty) (args : List Arg) : Keeps R (symbolicRange typeArgs args) := by
  unfold Machine.symbolicRange
  split <;> grind

/-- What the next step asks to make symbolic, and the machine that has found this out. -/
def request? (m : Machine) : Option (Pointer × Int × Machine) :=
  if m.pending.isSome ∨ m.limits.steps < m.counted.steps then none
  else
    match m.stack.head?.bind nextCall?, m.nextBuiltin? with
    | some c, some (.makeSymbolic, args, m') =>
      match symbolicRange c.typeArgs args m' with
      | .ok (p, size) m'' => some (p, size, m'')
      | .error _ _ => none
    | _, _ => none

/-- The bytes that the next step asks to make symbolic. -/
def asked (m : Machine) : Nat :=
  match m.request? with
  | some (_, size, _) => size.toNat
  | none => 0

/-- Memory refuses the bytes that the next step asks to make symbolic. -/
def isRefused (m : Machine) : Bool :=
  match m.request? with
  | some (p, size, m') =>
    match makeSymbolic p size m'.memory with
    | .ok _ _ => false
    | .error _ _ => true
  | none => false

/-- The bytes that the next step makes symbolic. -/
def made (m : Machine) : Nat := if m.isRefused then 0 else m.asked

/-- The bytes that the next step takes from the input, but cannot write to memory. -/
def lost (m : Machine) : Nat := if m.isRefused then m.asked else 0

theorem asked_eq (m : Machine) : m.asked = m.made + m.lost := by
  unfold made lost
  split <;> omega

theorem keepsInputs_closed : Closed False (Steady Store.KeepsInputs) :=
  steady_closed Store.keepsInputs_composes fun _ _ => Store.keepsInputs_derives

theorem inputs_of_request?_none (h : m.request? = none) :
    (step.final m).memory.store.inputCount = m.memory.store.inputCount := by
  obtain ⟨e, n, hfinal⟩ | ⟨f, rest, hpending, hlimit, hstack, hfinal⟩ := final_step m
  · rw [hfinal]
  have hR := keepsInputs_closed
  have hany (t : Ty) : t.Fits False := t.fits_of_not id
  have hcall (c : Call) (hc : nextCall? f = some c) :
      Along False (Steady Store.KeepsInputs) m.counted ((call c).final m.counted) := by
    refine hR.call_final fun args dest m1 hfound hnone => along_false.2 ?_
    by_cases hb : Builtin.ofName? c.callee = some .makeSymbolic
    · rw [callOther_of_builtin hb, callBuiltin_makeSymbolic]
      refine hR.bind_final ?_ fun x m2 hrange => ?_
      · exact hR.symbolicRange c.typeArgs args m1
      · -- a call of `mksym` whose operands are found is a request
        have hhead : m.stack.head?.bind nextCall? = some c := by simp [hstack, hc]
        have hnext : m.nextBuiltin? = some (.makeSymbolic, args, m1) := by
          simp [nextBuiltin?, hhead, hfound, hnone, hb]
        simp [request?, hpending, Int.not_lt.2 hlimit, hhead, hnext, hrange] at h
    · exact hR.callOther (fun _ _ => hany _) (fun _ _ => hany _) (fun _ _ => hany _)
        (fun h => absurd h hb)
        (fun _ _ _ => steady_assumes Store.keepsInputs_composes fun s c _ => s.keepsInputs_push c) m1
  rw [hfinal]
  exact (along_false.1 (hR.stepFrame_final (fun t _ => hany t) hcall)).store

theorem isName_of_builtin {callee : Json} (h : Builtin.ofName? callee = some b) :
    callee.isName = true := by
  cases callee with
  | str s => rfl
  | _ => cases h

theorem nextBuiltin?_eq_some {c : Call} {args : List Arg}
    (hc : m.stack.head?.bind nextCall? = some c) (h : m.nextBuiltin? = some (b, args, m')) :
    ∃ dest, evalCall c m.counted = .ok (args, dest) m' ∧ m'.program.find? c.callee = none ∧
      Builtin.ofName? c.callee = some b := by
  unfold nextBuiltin? at h
  rw [hc] at h
  dsimp only at h
  split at h
  · rename_i found m1 hfound
    split at h
    · cases h
    · rename_i hnone
      obtain ⟨b', hb, heq⟩ := Option.map_eq_some_iff.1 h
      cases heq
      exact ⟨found.2, hfound, hnone, hb⟩
  · cases h

/-- What a request says about the next step: it calls `mksym`, and the operands are found. -/
theorem request?_eq_some (h : m.request? = some (p, size, m')) :
    m.pending = none ∧ (m.counted.steps : Int) ≤ m.limits.steps ∧ ∃ f rest c args m1,
      m.stack = f :: rest ∧ nextCall? f = some c ∧ m.nextBuiltin? = some (.makeSymbolic, args, m1) ∧
      symbolicRange c.typeArgs args m1 = .ok (p, size) m' := by
  unfold request? at h
  split at h
  · cases h
  rename_i hdue
  rw [not_or, Option.not_isSome_iff_eq_none, Int.not_lt] at hdue
  refine ⟨hdue.1, hdue.2, ?_⟩
  split at h
  · rename_i c args m1 hc hnext
    split at h
    · rename_i hrange
      cases h
      obtain ⟨f, hf, hc⟩ := Option.bind_eq_some_iff.1 hc
      obtain ⟨rest, hstack⟩ := head?_eq_some_iff.1 hf
      exact ⟨f, rest, c, args, m1, hstack, hc, hnext, hrange⟩
    · cases h
  · cases h

/-- A step that asks for bytes takes them, writes them to memory and goes on after the call. -/
theorem attempt_of_request? (h : m.request? = some (p, size, m')) :
    m'.memory.store.inputCount = m.memory.store.inputCount ∧ ∃ c, attempt m
      = (do onMemory (makeSymbolic p size); afterCall c : Run Machine StepResult) m' := by
  obtain ⟨hpending, hlimit, f, rest, c, args, m1, hstack, hc, hnext, hrange⟩ := request?_eq_some h
  have hhead : m.stack.head?.bind nextCall? = some c := by simp [hstack, hc]
  obtain ⟨dest, hfound, hnone, hb⟩ := nextBuiltin?_eq_some hhead hnext
  have hR := keepsInputs_closed
  constructor
  · have hfirst := (hR.evalCall c m.counted).store
    have hsecond := (hR.symbolicRange c.typeArgs args m1).store
    rw [final_of_ok hfound] at hfirst
    rw [final_of_ok hrange] at hsecond
    exact hsecond.trans hfirst
  · have hframe : stepFrame f = call c := by
      rcases hR.stepFrame_cases (f := f) (fun t _ => t.fits_of_not id) with ⟨c', hc', hcall⟩ | ⟨hother, -⟩
      · obtain rfl := Option.some.inj (hc.symm.trans hc')
        exact hcall
      · cases hc.symm.trans hother
    have hstep : attempt m = stepFrame f m.counted :=
      (attempt_of_frame hpending hstack).trans (if_neg (Int.not_lt.2 hlimit))
    refine ⟨c, ?_⟩
    rw [hstep, hframe, call, bind_of_ok hfound, callWith_eq, hnone]
    simp only [isName_of_builtin hb, Bool.not_true, Bool.false_eq_true, if_false]
    rw [callOther_of_builtin hb, callBuiltin_makeSymbolic, bind_assoc]
    exact bind_of_ok hrange

theorem memory_afterCall (c : Call) (m : Machine) : ((afterCall c).final m).memory = m.memory := by
  unfold afterCall
  cases c.target with
  | none => rfl
  | some target =>
    change ((changeFrame _).final m).memory = _
    rw [final_changeFrame]
    split <;> rfl

/-- After a step that asks for bytes, memory is as the write has left it. -/
theorem memory_of_request? (h : m.request? = some (p, size, m')) :
    (step.final m).memory = (makeSymbolic p size).final m'.memory := by
  obtain ⟨-, c, hstep⟩ := attempt_of_request? h
  rw [step, final_written]
  have hfinal := final_onMemory (makeSymbolic p size) m'
  cases hwrite : onMemory (makeSymbolic p size) m' with
  | ok a m1 =>
    rw [final_of_ok hwrite] at hfinal
    rw [bind_of_ok hwrite] at hstep
    have hsame : attempt.final m = (afterCall c).final m1 := by
      unfold final
      rw [hstep]
    rw [hsame, memory_afterCall, hfinal]
  | error e m1 =>
    rw [final_of_error hwrite] at hfinal
    rw [bind_of_error hwrite] at hstep
    rw [final_of_error hstep, hfinal]

theorem inputs_step (m : Machine) :
    (step.final m).memory.store.inputCount = m.memory.store.inputCount + m.asked := by
  cases hrequest : m.request? with
  | none => simpa [asked, hrequest] using inputs_of_request?_none hrequest
  | some x =>
    obtain ⟨p, size, m'⟩ := x
    rw [memory_of_request? hrequest, store_makeSymbolic, Store.inputCount_extend_input,
      (attempt_of_request? hrequest).1]
    simp [asked, hrequest]

/-- A step that loses bytes fails, and leaves what is allocated as it was when the operands were found. -/
theorem raises_of_lost (h : 0 < m.lost) : ∃ p size m1 e m', m.request? = some (p, size, m1) ∧
    step m = .error e m' ∧ m'.memory.allocs = m1.memory.allocs := by
  cases hrefused : m.isRefused with
  | false => simp [lost, hrefused] at h
  | true =>
    cases hrequest : m.request? with
    | none => simp [isRefused, hrequest] at hrefused
    | some x =>
      obtain ⟨p, size, m1⟩ := x
      obtain ⟨-, c, hstep⟩ := attempt_of_request? hrequest
      cases hmemory : makeSymbolic p size m1.memory with
      | ok a memory => simp [isRefused, hrequest, hmemory] at hrefused
      | error e memory =>
        have hwrite : onMemory (makeSymbolic p size) m1 = .error e { m1 with memory := memory } := by
          rw [onMemory, hmemory]
        rw [bind_of_error hwrite] at hstep
        exact ⟨p, size, m1, e.written, _, rfl, written_eq_error.2 ⟨e, hstep, rfl⟩,
          by rw [makeSymbolic_of_error hmemory]⟩

theorem lost_of_ok {r : StepResult} (h : step m = .ok r m') : m.lost = 0 := by
  by_contra hlost
  obtain ⟨-, -, -, e, m1, -, hstep, -⟩ := raises_of_lost (Nat.pos_of_ne_zero hlost)
  cases h.symm.trans hstep

theorem holds_of_made (h : 0 < m.made) : ∃ p size m', m.request? = some (p, size, m') ∧
    size.toNat = m.made ∧
    (step.final m).memory.Holds p (Store.cellsFrom m'.memory.store.size m.made) := by
  cases hrefused : m.isRefused with
  | true => simp [made, hrefused] at h
  | false =>
    have hmade : m.made = m.asked := by simp [made, hrefused]
    rw [hmade] at h ⊢
    cases hrequest : m.request? with
    | none => simp [asked, hrequest] at h
    | some x =>
      obtain ⟨p, size, m'⟩ := x
      have hasked : m.asked = size.toNat := by simp [asked, hrequest]
      rw [hasked] at h ⊢
      refine ⟨p, size, m', rfl, rfl, ?_⟩
      rw [memory_of_request? hrequest]
      cases hmemory : makeSymbolic p size m'.memory with
      | ok a memory =>
        rw [final_of_ok hmemory]
        exact holds_makeSymbolic (by omega) hmemory
      | error e memory => simp [isRefused, hrequest, hmemory] at hrefused

/-- A step that leads further makes all bytes symbolic that it asks for. -/
theorem inputs_leads (h : m.Leads m') :
    m'.memory.store.inputCount = m.memory.store.inputCount + m.made := by
  obtain ⟨r, m1, hstep, hm⟩ := h.cases
  have hinputs := inputs_step m
  rw [final_of_ok hstep, asked_eq, lost_of_ok hstep, Nat.add_zero] at hinputs
  rcases hm with rfl | ⟨b, rfl⟩
  · exact hinputs
  · rw [store_taken]
    exact hinputs

/-- Only the last step of a path may lose bytes, so the others have made all symbolic that they took. -/
theorem inputs_path (h : (m :: ms).IsChain Leads) (hlast : (m :: ms).getLast? = some last) :
    (step.final last).memory.store.inputCount
      = m.memory.store.inputCount + ((m :: ms).map made).sum + last.lost := by
  induction ms generalizing m with
  | nil =>
    cases hlast
    rw [inputs_step, asked_eq]
    simp
    omega
  | cons m1 ms ih =>
    obtain ⟨hleads, hrest⟩ := isChain_cons_cons.1 h
    rw [getLast?_cons_cons] at hlast
    have hsum : ((m :: m1 :: ms).map made).sum = m.made + ((m1 :: ms).map made).sum := sum_cons
    rw [ih hrest hlast, inputs_leads hleads, hsum]
    omega

/-! ## Reports -/

/-- Where no input is found, none is reported. -/
theorem Ends.input_of_error {length : Option Int} (h : m.Ends length r)
    (he : (step.final m).leastInput length = .error e) : r.input = [] := by
  rcases h.cases with ⟨e', m', hstep, rfl⟩ | ⟨m', hstep, rfl⟩ | ⟨m', hstep, hreport⟩
  · rw [final_of_error hstep] at he
    simp [failureReport, he, Except.toOption]
  · rw [final_of_ok hstep] at he
    simp [failureReport, he, Except.toOption]
  · rw [final_of_ok hstep] at he
    unfold successReport at hreport
    rw [he] at hreport
    cases hreport
    rfl

/-- A whole program reports all input bytes if some input takes the path, and else none. -/
theorem Ends.input_of_whole (h : m.Ends none r) (hs : (step.final m).memory.store.WellFormed) :
    let s := (step.final m).memory.store
    ((∃ v, s.Models v) → r.input.length = s.inputCount) ∧ ((¬ ∃ v, s.Models v) → r.input = []) := by
  intro s
  constructor
  · intro hmodel
    obtain ⟨x, -, hx, hlength, -⟩ := Store.assignment_prefix (Nat.le_refl _) hs hmodel
    rw [h.input_eq hx, hlength]
  · intro hmodel
    cases hinput : (step.final m).leastInput none with
    | error e => exact h.input_of_error hinput
    | ok x =>
      rcases (Store.assignment_isOk_iff hs _).1 ⟨x, hinput⟩ with hzero | hfeasible
      · have hnone : (step.final m).leastInput none = .ok [] := by
          have hcount : ((step.final m).memory.store.inputCount : Int) = 0 := hzero
          rw [leastInput, Option.getD_none, hcount]
          rfl
        exact h.input_eq hnone
      · exact absurd hfeasible hmodel

end Machine

namespace Target

variable {program : Program} {name : String} {config : Config} {t : Target}

/-- The machines of a path, from the start to the one whose next step ends it with a report. -/
structure Trail (t : Target) (ms : List Machine) (last : Machine) (r : Report) : Prop where
  start : ms.head? = some t.start
  leads : ms.IsChain Machine.Leads
  final : ms.getLast? = some last
  ends : last.Ends t.inputLength r

theorem Trail.reaches (h : t.Trail ms last r) : t.Reaches last := by
  cases ms with
  | nil => cases h.start
  | cons m ms =>
    cases h.start
    exact reaches_of_chain h.leads h.final

/-- The input bytes of a path are those that its steps have made symbolic and the last one has lost. -/
theorem Trail.inputs (h : t.Trail ms last r) :
    (step.final last).memory.store.inputCount
      = t.start.memory.store.inputCount + (ms.map made).sum + last.lost := by
  cases ms with
  | nil => cases h.start
  | cons m ms =>
    cases h.start
    exact inputs_path h.leads h.final

theorem exists_trail (most : Option Int) (hsteps : t.start.steps = 0)
    (hr : r ∈ (t.explore most).reports) : ∃ ms last, t.Trail ms last r := by
  obtain ⟨m, hreaches, hends⟩ := exists_reached most hsteps hr
  obtain ⟨ms, hchain, hlast⟩ := exists_isChain_cons_of_relationReflTransGen hreaches
  refine ⟨t.start :: ms, m, rfl, hchain, ?_, hends⟩
  rw [getLast?_eq_getLast_of_ne_nil (cons_ne_nil _ _), hlast]

theorem inputs_ofMain (h : ofMain program name config = .ok t) :
    t.start.memory.store.inputCount = 0 := by
  obtain ⟨f, hf, hpush⟩ := ofMain_eq_ok h
  have hfound : ∃ name, (machine program config).program.find? name = some f := ⟨_, entry_eq_ok hf⟩
  have hkeeps := keepsInputs_closed.pushAny [] none none hfound
  rw [final_of_ok hpush] at hkeeps
  exact hkeeps.store

/-- The input of a whole program. Every report belongs to a path. If some input takes it, then the input that
is reported is as long as the bytes that calls of `mksym` have made symbolic, together with those that the
last step has lost; if none does, it is empty. A step that makes bytes symbolic leaves new input bytes in
memory, and one that loses bytes ends its path with an error. -/
theorem input_length_eq (ht : ofMain program name config = .ok t) (most : Option Int) {r : Report}
    (hr : r ∈ (t.explore most).reports) :
    (∃ ms last, t.Trail ms last r) ∧ ∀ ms last, t.Trail ms last r →
      let s := (Machine.step.final last).memory.store
      ((∃ v, s.Models v) → r.input.length = (ms.map Machine.made).sum + last.lost) ∧
      ((¬ ∃ v, s.Models v) → r.input = []) ∧
      (∀ m ∈ ms, 0 < m.made → ∃ p size m', m.request? = some (p, size, m') ∧ size.toNat = m.made ∧
        (Machine.step.final m).memory.Holds p (Store.cellsFrom m'.memory.store.size m.made)) ∧
      (0 < last.lost → ∃ p size m1 e m', last.request? = some (p, size, m1) ∧
        Machine.step last = .error (.error e) m' ∧ m'.memory.allocs = m1.memory.allocs ∧
        r.outcome = .failure e m'.trace) := by
  have hfresh := fresh_ofMain ht
  refine ⟨exists_trail most hfresh.steps hr, fun ms last htrail => ?_⟩
  have hends : last.Ends none r := inputLength_ofMain ht ▸ htrail.ends
  have hsound := htrail.reaches.sound hfresh
  obtain ⟨hsome, hnone⟩ := hends.input_of_whole (hsound.extends (extends_step last)).store
  refine ⟨fun hmodel => ?_, hnone, fun m _ => holds_of_made, fun hlost => ?_⟩
  · rw [hsome hmodel, htrail.inputs, inputs_ofMain ht, Nat.zero_add]
  · rcases hends.cases with ⟨e, m', hstep, rfl⟩ | ⟨m', hstep, -⟩ | ⟨m', hstep, -⟩
    · obtain ⟨p, size, m1, e', m'', hrequest, hraises, hallocs⟩ := raises_of_lost hlost
      cases hstep.symm.trans hraises
      exact ⟨p, size, m1, e, m', hrequest, hstep, hallocs, rfl⟩
    · exact absurd (lost_of_ok hstep) (by omega)
    · exact absurd (lost_of_ok hstep) (by omega)

end Target

/-! ## A call that overruns its target -/

namespace Overrun

variable {n : Nat}

/-- Makes a byte symbolic, and then eight bytes in its place. -/
def main : Function where
  name := .str "main"
  locals := [.unit, .u8, .ref .u8 true]
  argCount := 0
  blocks := [
    ⟨[.assign ⟨2, []⟩ (.ref ⟨1, []⟩ true)], .call ⟨.str "mksym", [.copy ⟨2, []⟩], none, some 1, []⟩⟩,
    ⟨[], .call ⟨.str "mksym", [.copy ⟨2, []⟩], none, some 2, [.usize]⟩⟩,
    ⟨[], .ret⟩]

def program : Program := ⟨[main]⟩

def config : Config := { limits := { steps := 9 } }

def start : Machine where
  program := program
  limits := config.limits
  memory := {
    limit := config.limits.memory
    usage := 9
    allocs := [
      (1, ⟨[], [], 1, .stack, [], []⟩),
      (2, ⟨[.known 0], [false], 1, .stack, [], []⟩),
      (3, ⟨replicate 8 (.known 0), replicate 8 false, 8, .stack, [], []⟩)]
    next := 4 }
  stack := [{ function := main, locals := [.known 1 0, .known 2 0, .known 3 0] }]

def target : Target := { start := start }

def after : Nat → Machine
  | 0 => start
  | n + 1 => step.final (after n)

def trace : List Machine := [after 0, after 1, after 2]

def report : Report where
  input := replicate 9 0
  outcome := .failure (.accessOutside 8 2 0 1) ["inside call to main at bb1[0]"]

theorem ofMain_program : Target.ofMain program "main" config = .ok target := by rfl

theorem step_after (h : n < 2) : step (after n) = .ok .advance (after (n + 1)) := by
  rcases n with _ | _ | n
  · rfl
  · rfl
  · omega

theorem expand_after (h : n < 2) : (after n).expand none = .further false [after (n + 1)] := by
  simp only [expand, step_after h]

theorem expand_last : (after 2).expand none = .failed report := by
  have hsize : Text.isPrintableInt 8 := by decide +kernel
  have hwritten : (EvalError.accessOutside 8 2 0 1).fault? = none := by
    simp [EvalError.fault?, EvalError.shown, Shown.fault?, Json.isPrintable, hsize]
  have hstep : step (after 2)
      = .error (.error (.accessOutside 8 2 0 1)) (attempt.final (after 2)) :=
    written_eq_error.2 ⟨_, rfl, written_eq_local.2 ⟨rfl, hwritten⟩⟩
  simp only [expand, hstep]
  rfl

theorem trail_trace : target.Trail trace (after 2) report where
  start := rfl
  leads := by
    have hleads {n : Nat} (h : n < 2) : (after n).Leads (after (n + 1)) := .advance (step_after h)
    simp only [trace, isChain_cons_cons, isChain_singleton, and_true]
    exact ⟨hleads (by decide), hleads (by decide)⟩
  final := rfl
  ends := .inr (.inl expand_last)

theorem explore_target : (target.explore none).reports = [report] := by
  have hexplore : target.explore none = Exploration.loop none none 10 [after 0] [] {} := rfl
  rw [hexplore]
  simp [Exploration.loop, expand_after, expand_last, Exploration.absorb, Exploration.halted,
    Exploration.countFork, Exploration.countStep, Exploration.deliver, Exploration.wanted]

end Overrun

/-- One byte is made symbolic and eight are lost: the input has nine. -/
theorem Target.input_length_eq_overrun :
    ofMain Overrun.program "main" Overrun.config = .ok Overrun.target ∧
    Overrun.report ∈ (Overrun.target.explore none).reports ∧
    Overrun.target.Trail Overrun.trace (Overrun.after 2) Overrun.report ∧
    (∃ v, (Machine.step.final (Overrun.after 2)).memory.store.Models v) ∧
    Overrun.trace.map Machine.made = [0, 1, 0] ∧ (Overrun.after 2).lost = 8 ∧
    Overrun.report.input.length = 1 + 8 := by
  have hreport : Overrun.report ∈ (Overrun.target.explore none).reports := by
    simp [Overrun.explore_target]
  have hsound := Overrun.trail_trace.reaches.sound (fresh_ofMain Overrun.ofMain_program)
  have hmodel : ∃ v, (step.final (Overrun.after 2)).memory.store.Models v := by
    have hstore := (hsound.extends (extends_step _)).store
    exact ⟨_, hstore.models (x := fun _ => 0) (by rfl)⟩
  have hmade : Overrun.trace.map made = [0, 1, 0] := by decide +kernel
  have hlost : (Overrun.after 2).lost = 8 := by decide +kernel
  obtain ⟨-, hpath⟩ := input_length_eq Overrun.ofMain_program none hreport
  have hlength := (hpath _ _ Overrun.trail_trace).1 hmodel
  rw [hmade, hlost] at hlength
  exact ⟨Overrun.ofMain_program, hreport, Overrun.trail_trace, hmodel, hmade, hlost, hlength⟩

end SymExec

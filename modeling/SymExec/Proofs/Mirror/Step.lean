import SymExec.Proofs.Mirror.Intrinsic

/-!
# Steps on known and on symbolic bytes

A step on known bytes goes where the step on symbolic bytes goes. Where symbolic bytes decide, a fork
is taken by a branch whose condition holds, and known bytes go straight there
(`Decision.mirrors_run`). The exceptions are collected here: the errors that only known bytes can
have (`Frame.Omits`), and the steps after which known bytes may be elsewhere (`Frame.Departs`).
-/
namespace SymExec

open Run List Machine

variable {a a' : Scalar} {m' : Machine} {r : StepResult}

namespace Machine

variable {v : Valuation} {s0 : Store} {E : EvalError → Prop} {D : Prop} {m : Machine}
variable {args args' : List Arg} {b : Builtin} {dest dest' : Option PlaceRef}

/-! ## Frames -/

theorem mirrors_changeFrame {f : Frame → Frame} (h : ∀ g : Frame, f (g.ground v) = (f g).ground v) :
    Shadows (view v s0) E D (changeFrame f) (changeFrame f) m := by
  obtain ⟨program, limits, memory, stack, steps, pending⟩ := m
  cases stack with
  | nil => exact .modify rfl rfl
  | cons g rest => exact .modify rfl (by simp [view, ground, h])

theorem mirrors_goto (block : Int) : Shadows (view v s0) E D (goto block) (goto block) m :=
  mirrors_changeFrame fun _ => rfl

theorem mirrors_advance (block : Int) :
    Mirrors (view v s0) E D Eq
      (do
        goto block
        return StepResult.advance)
      (do
        goto block
        return StepResult.advance) m :=
  .bind (mirrors_goto block) fun _ _ _ _ _ => .pure rfl

/-- An argument that is passed, the local that receives it, and the type of the local. -/
def Passes (v : Valuation) (x x' : Arg × Pointer × Ty) : Prop :=
  x.1.Agrees v x'.1 ∧ x'.2.1 = x.2.1.ground v ∧ x'.2.2 = x.2.2

theorem passes_zip (h : List.Forall₂ (Arg.Agrees v) args args') (locals : List (Pointer × Ty)) :
    List.Forall₂ (Passes v) (args.zip locals)
      (args'.zip (locals.map fun (p, ty) => (p.ground v, ty))) := by
  induction h generalizing locals with
  | nil => exact .nil
  | cons ha _ ih =>
    cases locals with
    | nil => exact .nil
    | cons x locals => exact .cons ⟨ha, rfl, rfl⟩ (ih locals)

theorem mirrors_pushFrame (function : Function) (hargs : List.Forall₂ (Arg.Agrees v) args args')
    (returnPtr : Option Pointer) (returnTarget : Option Int) :
    Shadows (view v s0) E D (pushFrame function args returnPtr returnTarget)
      (pushFrame function args' (returnPtr.map (Pointer.ground v)) returnTarget) m := by
  unfold pushFrame
  rw [← hargs.length_eq]
  refine .stateBind ?_
  have hdepth : (view v s0).ground m = m.ground v s0 := rfl
  have hlength : (m.ground v s0).stack.length = m.stack.length := by simp [ground]
  have hlimits : (m.ground v s0).limits = m.limits := rfl
  rw [hdepth]
  simp only [hlength, hlimits]
  by_cases hlimit : m.limits.frames ≤ m.stack.length
  · simp only [if_pos hlimit]
    exact .of_error (bind_of_error (failReporting_apply _ _ _))
  · simp only [if_neg hlimit]
    by_cases harity : (args.length : Int) ≠ function.argCount
    · simp only [if_pos harity]
      exact .of_error rfl
    · simp only [if_neg harity]
      have hsame : List.Forall₂ Eq function.locals function.locals := forall₂_same.2 fun _ _ => rfl
      refine .bind (.mapM (R := fun p p' => p' = p.ground v) hsame ?_ m) fun locals locals' m1 _ hl => ?_
      · rintro ty _ m1 rfl
        refine .sameBind fun size _ => .bind (R := Eq) (.sameBind fun _ _ => .pure rfl) ?_
        rintro align _ m2 - rfl
        refine (mirrors_onMemory (Memory.mirrors_allocate size align .stack)).mono fun p p' hp => ?_
        obtain ⟨id, rfl, rfl⟩ := hp
        rfl
      · obtain rfl : locals.map (Pointer.ground v) = locals' :=
          forall₂_eq_eq_eq ▸ forall₂_map_left_iff.2 (hl.imp fun _ _ h => h.symm)
        have hmodify : Shadows (view v s0) E D
            (modify fun m : Machine =>
              { m with stack := ⟨function, locals, 0, 0, returnPtr, returnTarget⟩ :: m.stack })
            (modify fun m : Machine =>
              { m with stack := ⟨function, locals.map (Pointer.ground v), 0, 0,
                  returnPtr.map (Pointer.ground v), returnTarget⟩ :: m.stack }) m1 :=
          .modify rfl rfl
        refine .bind hmodify fun _ _ m2 _ _ => .bind (R := fun _ _ => True) ?_ fun _ _ _ _ _ => .pure trivial
        have hpasses := passes_zip hargs ((locals.zip function.locals).drop 1)
        have hzip : ((locals.zip function.locals).drop 1).map (fun (p, ty) => (p.ground v, ty))
            = ((locals.map (Pointer.ground v)).zip function.locals).drop 1 := by
          rw [map_drop, zip_map_left]
          rfl
        rw [hzip] at hpasses
        refine .forIn hpasses ?_ m2
        rintro ⟨arg, p, ty⟩ ⟨arg', p', ty'⟩ m3 ⟨harg, hp, hty⟩
        obtain ⟨ty0, hvalue, -⟩ := harg
        cases hp
        cases hty
        exact .bind (mirrors_writeValue p hvalue ty true) fun _ _ _ _ _ => .pure ⟨rfl, rfl⟩

theorem mirrors_toU64 (ha : a.Agrees v a') :
    Mirrors (view v s0) E D (fun n n' => n' = n) (liftM a.toU64 : Run Machine Nat)
      (liftM a'.toU64) m := by
  cases ha with
  | bits p => exact .lift_of_ok fun _ h => ⟨_, rfl, h⟩
  | ptr | undef | cells => exact .of_error rfl

/-! ## Returns -/

theorem mirrors_handOver (f : Frame) :
    Shadows (view v s0) E D (handOver f) (handOver (f.ground v)) m := by
  have hptr : (f.ground v).returnPtr = f.returnPtr.map (Pointer.ground v) := rfl
  have hlocals : (f.ground v).locals = f.locals.map (Pointer.ground v) := rfl
  unfold handOver
  rw [hptr, hlocals]
  cases f.returnPtr with
  | none => exact .pure trivial
  | some p =>
    cases f.locals with
    | nil => exact .pure trivial
    | cons result rest =>
      refine .sameBind fun size _ => ?_
      by_cases hsize : 0 < size
      · rw [if_pos hsize, if_pos hsize]
        exact mirrors_onMemory (Memory.mirrors_copyBytes result p size 1)
      · rw [if_neg hsize, if_neg hsize]
        exact .pure trivial

theorem mirrors_freeLocals (locals : List Pointer) : Shadows (view v s0) E D (freeLocals locals)
      (freeLocals (locals.map (Pointer.ground v))) m := by
  have hlocals : List.Forall₂ (fun p p' => p' = p.ground v) locals (locals.map (Pointer.ground v)) :=
    forall₂_map_right_iff.2 (forall₂_same.2 fun _ _ => rfl)
  unfold freeLocals
  refine .bind (R := fun _ _ => True) (.forIn hlocals ?_ m) fun _ _ _ _ _ => .pure trivial
  rintro p _ m1 rfl
  exact .bind (mirrors_onMemory (Memory.mirrors_deallocate p _)) fun _ _ _ _ _ => .pure ⟨rfl, rfl⟩

theorem mirrors_resume (f : Frame) :
    Mirrors (view v s0) E D Eq (resume f) (resume (f.ground v)) m := by
  have hpop : Shadows (view v s0) E D
      (modify fun m : Machine => { m with stack := m.stack.drop 1 })
      (modify fun m : Machine => { m with stack := m.stack.drop 1 }) m :=
    .modify rfl (by simp [view, ground])
  have htarget : (f.ground v).returnTarget = f.returnTarget := rfl
  unfold resume
  rw [htarget]
  refine .bind hpop fun _ _ m2 _ _ => .stateBind ?_
  have hempty : ((view v s0).ground m2).stack.isEmpty = m2.stack.isEmpty := isEmpty_map
  rw [hempty]
  split
  · exact .pure rfl
  · cases f.returnTarget with
    | none => exact .of_error rfl
    | some target => exact mirrors_advance target

theorem mirrors_ret : Mirrors (view v s0) E D Eq ret ret m := by
  unfold ret
  refine .bindOf mirrors_frame fun f m1 _ => ?_
  refine .bind (mirrors_handOver f) fun _ _ m2 _ _ => ?_
  exact .bind (mirrors_freeLocals f.locals) fun _ _ m3 _ _ => mirrors_resume f

/-! ## Builtins -/

theorem mirrors_performBuiltin (hb : b ≠ .makeSymbolic)
    (hargs : List.Forall₂ (Arg.Agrees v) args args')
    (hdest : Option.Rel (PlaceRef.Agrees v) dest dest') (typeArgs : List Ty) :
    Shadows (view v s0) E D (performBuiltin b args dest typeArgs)
      (performBuiltin b args' dest' typeArgs) m := by
  cases b with
  | makeSymbolic => exact absurd rfl hb
  | panic =>
    rintro _ _ hok
    obtain ⟨message, m1, -, hfail⟩ := bind_eq_ok.1 hok
    cases hfail
  | alloc =>
    obtain _ | ⟨hsize, _ | ⟨halign, _ | _⟩⟩ := hargs
    · exact .throw _
    · exact .throw _
    · refine .bind (mirrors_readArg hsize) fun a a' _ _ ha => ?_
      refine .bind (mirrors_readArg halign) fun b b' _ _ hb => ?_
      refine .bindOf (mirrors_toU64 ha.agrees) fun size _ _ => ?_
      refine .bindOf (mirrors_toU64 hb.agrees) fun align _ _ => ?_
      refine .bind (mirrors_onMemory (Memory.mirrors_allocate size align .heap)) fun p p' _ _ hp => ?_
      obtain ⟨id, rfl, rfl⟩ := hp
      cases hdest with
      | none => exact .pure trivial
      | some hd =>
        obtain ⟨q, ty, -⟩ := hd
        exact mirrors_writeScalar q (.ptr (.known id 0)) ty true
    · exact .throw _
  | dealloc =>
    obtain _ | ⟨hp, _ | ⟨hsize, _ | _⟩⟩ := hargs
    · exact .throw _
    · exact .throw _
    · refine .bind (mirrors_readArg hp) fun a a' _ _ ha => ?_
      refine .bindOf (mirrors_toPtr ha.agrees) fun p _ _ => ?_
      refine .bind (mirrors_readArg hsize) fun b b' _ _ hb => ?_
      refine .bindOf (mirrors_toU64 hb.agrees) fun size m1 _ => ?_
      have hget : Mirrors (view v s0) E D (fun a a' => a' = a.ground v)
          (liftM (m1.memory.get p.alloc) : Run Machine Allocation)
          (liftM ((m1.ground v s0).memory.get (p.ground v).alloc)) m1 := by
        obtain ⟨offset, hground⟩ := p.exists_ground v
        rw [hground]
        exact .lift_of_ok fun a ha => ⟨_, rfl, Memory.get_ground ha⟩
      refine .stateBind (.bind hget fun a a' _ _ ha => ?_)
      obtain rfl := ha
      rw [Allocation.size_ground]
      split
      · exact .of_error rfl
      · exact mirrors_onMemory (Memory.mirrors_deallocate p (some .heap))
    · exact .throw _

theorem mirrors_callBuiltin (hb : b ≠ .makeSymbolic)
    (hargs : List.Forall₂ (Arg.Agrees v) args args')
    (hdest : Option.Rel (PlaceRef.Agrees v) dest dest') (typeArgs : List Ty) :
    Shadows (view v s0) E D (callBuiltin b args dest typeArgs)
      (callBuiltin b args' dest' typeArgs) m := by
  have hperform : Shadows (view v s0) E D (performBuiltin b args dest typeArgs)
      (performBuiltin b args' dest' typeArgs) m := mirrors_performBuiltin hb hargs hdest typeArgs
  unfold callBuiltin
  rw [← hargs.length_eq]
  cases b.arity? with
  | none => exact hperform
  | some expected =>
    by_cases harity : args.length ≠ expected
    · simp only [if_pos harity]
      exact .of_error rfl
    · simp only [if_neg harity]
      exact hperform

end Machine

theorem Memory.marked_update {m : Memory} (id : Nat) {f : Allocation → Allocation}
    (hf : ∀ a, a.defined.length = a.cells.length → (f a).defined.length = (f a).cells.length)
    (h : m.Marked) : (m.update id f).Marked := by
  intro y hy
  obtain ⟨⟨k, a⟩, hx, rfl⟩ := mem_map.1 hy
  by_cases hk : k = id
  · simp only [if_pos hk]
    exact hf a (h _ hx)
  · simp only [if_neg hk]
    exact h _ hx

namespace Machine

/-! ## What evaluating operands keeps -/

def KeepsMarked (m m' : Machine) : Prop := m.memory.Marked → m'.memory.Marked

theorem keepsMarked_composes : Composes KeepsMarked := ⟨fun _ => id, fun h h' => h' ∘ h⟩

attribute [grind .] keepsMarked_composes

@[grind ←] theorem keepsMarked_allocateStatic (data : List (BitVec 8)) :
    Keeps KeepsMarked (onMemory (Memory.allocateStatic data)) := by
  intro m hm
  rw [final_onMemory]
  change ((Memory.allocateStatic data).final m.memory).Marked
  have hallocated : ((Memory.allocate data.length 1 .static).final m.memory).Marked := by
    unfold final
    rw [Memory.allocate_eq, failReporting_apply]
    split_ifs
    · exact hm
    · exact hm
    · exact hm
    · exact hm
    · intro x hx
      rcases mem_append.1 hx with hx | hx
      · exact hm x hx
      · rw [mem_singleton.1 hx]
        simp
  unfold Memory.allocateStatic
  cases hallocate : Memory.allocate data.length 1 .static m.memory with
  | error e memory =>
    rw [final_of_error hallocate] at hallocated
    rw [final_of_error (bind_of_error hallocate)]
    exact hallocated
  | ok p memory =>
    rw [final_of_ok hallocate] at hallocated
    rw [final, bind_of_ok hallocate]
    exact Memory.marked_update p.alloc (by simp) hallocated

theorem keepsMarked_of_unchanged {α : Type} {act : Run Machine α} (h : Keeps Unchanged act) :
    Keeps KeepsMarked act := by
  intro m hm
  rwa [h m]

@[grind ←] theorem keepsMarked_evalOperand (operand : Operand) :
    Keeps KeepsMarked (evalOperand operand) := by
  cases operand with
  | constant value ty =>
    refine keepsMarked_composes.bind ?_ fun _ => keepsMarked_composes.pure _
    unfold evalConstant
    grind
  | copy place =>
    apply keepsMarked_of_unchanged
    have hplace := keeps_evalPlace place
    unfold evalOperand
    grind

end Machine

/-! ## Calls -/

def Call.Omits (c : Call) (e : EvalError) : Prop :=
  ∃ name i, c.callee = .str name ∧ Intrinsic.ofName? name = some i ∧ i.Omits e

/-- An exchange is made while bytes of the memory are neither marked as defined nor as undefined. -/
def Call.Departs (c : Call) (m : Machine) : Prop :=
  ∃ name, c.callee = .str name ∧ Intrinsic.ofName? name = some .compareExchange ∧ ¬ m.memory.Marked

namespace Machine

variable {v : Valuation} {s0 : Store} {E : EvalError → Prop} {D : Prop} {m : Machine}

theorem mirrors_dest (place : Option Place) :
    Mirrors (view v s0) E D (Option.Rel (PlaceRef.Agrees v)) (place.mapM evalPlace)
      (place.mapM evalPlace) m := by
  cases place with
  | none => exact .pure .none
  | some p => exact .bind (mirrors_evalPlace p) fun _ _ _ _ h => .pure (.some h)

theorem mirrors_afterCall (c : Call) :
    Mirrors (view v s0) E D Eq (afterCall c) (afterCall c) m := by
  unfold afterCall
  cases c.target with
  | none => exact .of_error rfl
  | some target => exact mirrors_advance target

theorem mirrors_evalCall (c : Call) :
    Mirrors (view v s0) E D (fun found found' => List.Forall₂ (Arg.Agrees v) found.1 found'.1 ∧
      Option.Rel (PlaceRef.Agrees v) found.2 found'.2) (evalCall c) (evalCall c) m := by
  have hsame : List.Forall₂ Eq c.args c.args := forall₂_same.2 fun _ _ => rfl
  have heval : ∀ o o' m, o = o' →
      Mirrors (view v s0) E D (Arg.Agrees v) (evalOperand o) (evalOperand o') m := by
    rintro o _ m rfl
    exact mirrors_evalOperand o
  refine .bind (.mapM hsame heval m) fun args args' m1 _ hargs => ?_
  exact .bind (mirrors_dest c.dest) fun dest dest' m2 _ hdest => .pure ⟨hargs, hdest⟩

theorem mirrors_call (c : Call) (hsymbolic : Builtin.ofName? c.callee ≠ some .makeSymbolic)
    (hordered : m.memory.Ordered) (hE : ∀ e, c.Omits e → E e) (hD : c.Departs m → D) :
    Mirrors (view v s0) E D Eq (call c) (call c) m := by
  refine .bind (mirrors_evalCall c) ?_
  rintro ⟨args, dest⟩ ⟨args', dest'⟩ m2 hm2 ⟨hargs, hdest⟩
  have hordered2 : m2.memory.Ordered := by
    have hclosed := invariant_closed (P := False) Memory.ordered_invariant
    rw [← final_of_ok hm2]
    exact hclosed.evalCall c m hordered
  have hmarked2 : m.memory.Marked → m2.memory.Marked := by
    rw [← final_of_ok hm2]
    refine keepsMarked_composes.bind (keepsMarked_composes.mapM fun o _ => keepsMarked_evalOperand o)
      (fun args => keepsMarked_composes.bind (keepsMarked_composes.mapOption
        (fun p => keepsMarked_of_unchanged (keeps_evalPlace p)) c.dest) fun _ => ?_) m
    exact keepsMarked_composes.pure _
  unfold callWith callOther
  by_cases hname : c.callee.isName = true
  · simp only [hname, Bool.not_true, Bool.false_eq_true, if_false]
    refine .stateBind ?_
    have hprogram : ((view v s0).ground m2).program = m2.program := rfl
    rw [hprogram]
    cases hfunction : m2.program.find? c.callee with
    | some function =>
      have hptr : dest'.map PlaceRef.ptr = (dest.map PlaceRef.ptr).map (Pointer.ground v) := by
        cases hdest with
        | none => rfl
        | some hd =>
          obtain ⟨p, ty, -⟩ := hd
          rfl
      simp only [hptr]
      exact .bind (mirrors_pushFrame function hargs _ _) fun _ _ _ _ _ => .pure rfl
    | none =>
      simp only
      split
      · rename_i b hb
        refine .bind (mirrors_callBuiltin ?_ hargs hdest c.typeArgs) fun _ _ _ _ _ => mirrors_afterCall c
        rintro rfl
        exact hsymbolic hb
      · rename_i name hbuiltin hcallee
        split
        · rename_i i hi
          have hcall : IntrinsicCall.Agrees v ⟨i, name, args, dest, c.typeArgs⟩
              ⟨i, name, args', dest', c.typeArgs⟩ := .intro i name c.typeArgs hargs hdest
          refine .bind (mirrors_callIntrinsic hcall hordered2 ?_ ?_) fun _ _ _ _ _ => mirrors_afterCall c
          · exact fun e he => hE e ⟨name, i, hcallee, hi, he⟩
          · rintro rfl hunmarked
            exact hD ⟨name, hcallee, hi, hunmarked ∘ hmarked2⟩
        · exact .of_error rfl
      · exact .of_error rfl
  · simp only [hname]
    exact .of_error rfl

end Machine

/-! ## Decisions -/

/-- A branch that some input takes rules nothing out if there are no symbolic bytes. -/
theorem Store.develops_push_of_feasible {s : Store} {c : Condition}
    (hc : ∀ i ∈ c.symbols, i < s.size) (hfeasible : s.feasible [c]) :
    s.Develops (s.push c) := by
  refine ⟨grows_push s c hc, rfl, fun hempty => ⟨hempty, fun v hv => ⟨hv.1, fun d hd => ?_⟩⟩⟩
  rcases mem_append.1 hd with hd | hd
  · exact hv.2 d hd
  · obtain rfl := mem_singleton.1 hd
    obtain ⟨x, hx⟩ := feasible_iff.1 hfeasible
    rw [accepts_iff] at hx
    rw [← hx d (by simp)]
    refine Term.holds_congr fun i hi => ?_
    have := hc i hi
    omega

namespace Machine

variable {b : Branch} {block : Int} {s0 : Store} {m : Machine} {v : Valuation} {bs : List Branch}

def enter : Option Branch → Run Machine StepResult
  | some ⟨condition, .goto block, _⟩ => do
    onStore (Store.require condition)
    goto block
    return .advance
  | _ => throw .crash

def choose (i : Nat) : StepResult → Run Machine StepResult
  | .fork bs => enter bs[i]?
  | r => return r

theorem enter_of_goto (h : b.next = .goto block) (m : Machine) :
    enter (some b) m = .ok .advance (m.taken b) := by
  obtain ⟨condition, next, write⟩ := b
  cases h
  rfl

theorem choose_eq_ok {i : Nat} (h : choose i (.fork bs) m = .ok r m') :
    ∃ b ∈ bs, ∃ block, b.next = .goto block ∧ r = .advance ∧ m' = m.taken b := by
  have henter : enter bs[i]? m = .ok r m' := h
  cases hb : bs[i]? with
  | none =>
    rw [hb] at henter
    cases henter
  | some b =>
    rw [hb] at henter
    cases hnext : b.next with
    | fail e =>
      obtain ⟨condition, next, write⟩ := b
      cases hnext
      cases henter
    | goto block =>
      rw [enter_of_goto hnext] at henter
      cases henter
      exact ⟨b, mem_of_getElem? hb, block, hnext, rfl, rfl⟩

theorem exists_choose (hb : b ∈ bs) (hnext : b.next = .goto block) (m : Machine) :
    ∃ i, choose i (.fork bs) m = .ok .advance (m.taken b) := by
  obtain ⟨i, hi⟩ := mem_iff_getElem?.1 hb
  refine ⟨i, ?_⟩
  change enter bs[i]? m = _
  rw [hi, enter_of_goto hnext]

/-- A branch that goes on at a block is on known bytes a jump to the block. -/
theorem run_goto_ground (h : b.next = .goto block) : (Continuation.goto block).run (m.ground v s0)
      = .ok .advance ((m.taken b).ground v s0) := by
  obtain ⟨program, limits, memory, stack, steps, pending⟩ := m
  unfold taken
  rw [h]
  cases stack with
  | nil => rfl
  | cons f rest => rfl

/-- What does not fork is mirrored as it is. -/
theorem mirrors_choose {E : EvalError → Prop} {D : Prop} {act act' : Run Machine StepResult}
    (h : Mirrors (view v s0) E D Eq act act' m) (hstraight : Yields Straight act) (i : Nat) :
    Mirrors (view v s0) E D Eq (act >>= choose i) act' m := by
  refine h.of_imp fun r m' hok => ?_
  obtain ⟨r1, m1, hact, hchoose⟩ := bind_eq_ok.1 hok
  cases r1 with
  | fork bs => exact absurd rfl (hstraight _ _ _ hact bs)
  | advance | done =>
    cases hchoose
    exact hact

end Machine

namespace Decision

variable {v : Valuation} {s0 : Store} {E : EvalError → Prop} {D : Prop} {m : Machine} {d : Decision}

/-- Known bytes are decided on as the number that they spell. An assertion refuses a number other
than zero and one. -/
theorem run_bits {n : Nat} {p : BitVec 128} (hlow : p.toNat % 256 ^ d.kind.numBytes = n) :
    (d.run (.bits p) = d.run (.ofBits n d.kind) ∧ d.Admits n) ∨
      ∃ expected target message, d = assert expected target message ∧
        ∀ m, ∃ k c, d.run (.bits p) m = .error (.error (.invalidBool k)) c := by
  cases d with
  | switch kind values targets otherwise =>
    refine .inl ⟨?_, trivial⟩
    obtain ⟨q, hq, hlow'⟩ := Scalar.ofBits_eq_bits n kind
    have hsame : q.setWidth kind.bits = p.setWidth kind.bits := by
      rw [hlow', BitVec.ofInt_natCast]
      apply BitVec.eq_of_toNat_eq
      rw [BitVec.toNat_ofNat, BitVec.toNat_setWidth, ← hlow, ← Scalar.pow_numBytes]
      exact Nat.mod_mod _ _
    change run _ (.bits p) = run _ (.ofBits n kind)
    rw [hq, run_switch_bits, run_switch_bits, hsame]
  | assert expected target message =>
    by_cases hle : p.toNat ≤ 1
    · have hn : n = p.toNat := by
        rw [← hlow]
        exact Nat.mod_eq_of_lt (by change p.toNat < 256; omega)
      have hsame : Scalar.ofBits n .bool = .bits p := by
        change Scalar.bits ((BitVec.ofInt 8 n).setWidth 128) = _
        rw [hn, BitVec.ofInt_natCast]
        congr 1
        apply BitVec.eq_of_toNat_eq
        rw [BitVec.toNat_setWidth, BitVec.toNat_ofNat]
        omega
      exact .inl ⟨congrArg _ hsame.symm, hn ▸ hle⟩
    · refine .inr ⟨_, _, _, rfl, fun m => ?_⟩
      have hbool : (Scalar.bits p).toBool = .error (.invalidBool p.toNat) := by
        rw [toBool_bits, if_neg (by omega), if_neg (by omega)]
      unfold run assertOn
      simp only [hbool]
      exact ⟨_, _, rfl⟩

theorem length_of_assert {expected : Bool} {target : Int} {message : Json} {list : List Cell}
    (h : (assert expected target message).run (.cells list) m = .ok r m') : list.length = 1 := by
  obtain ⟨_, _, ⟨⟩, h⟩ := bind_eq_ok.1 h
  obtain ⟨c, hc, -⟩ := ofBind_eq_ok.1 h
  exact (truth_cells_eq_ok hc).2

theorem mirrors_bits (d : Decision) (p : BitVec 128) :
    Mirrors (view v s0) E D Eq (d.run (.bits p)) (d.run (.bits p)) m := by
  cases d with
  | switch kind values targets otherwise => exact mirrors_advance _
  | assert expected target message =>
    refine .sameBind fun b _ => ?_
    split
    · exact .of_error rfl
    · exact mirrors_advance target

/-- Known bytes go straight to the block of the branch that is taken on symbolic bytes. -/
theorem mirrors_run (hd : d.Balanced) (i : Nat) (ha : a.Agrees v a')
    (hlength : ∀ list r, a = .cells list → d.run (.cells list) m = .ok r m →
      list.length = d.kind.numBytes)
    (hE : ∀ expected target message, d = assert expected target message → ∀ n, E (.invalidBool n))
    (hD : ∀ list, a = .cells list → 1 < d.listings (Cell.valueOf v list) → D) :
    Mirrors (view v s0) E D Eq (d.run a >>= choose i) (d.run a') m := by
  cases ha with
  | bits p => exact mirrors_choose (mirrors_bits d p) (straight_decision d rfl) i
  | ptr | undef => cases d <;> exact .of_error (bind_of_error rfl)
  | @cells list p hsymbols hlow =>
    intro r m' hok
    obtain ⟨r1, m1, hrun, hchoose⟩ := bind_eq_ok.1 hok
    obtain ⟨rfl, rfl, hscope⟩ := run_cells hrun
    obtain ⟨b, hmem, block, hnext, rfl, rfl⟩ := choose_eq_ok hchoose
    obtain ⟨hbranch, hfeasible⟩ := mem_filter.1 hmem
    have hdevelops := Store.develops_push_of_feasible (hscope b hbranch) hfeasible
    rw [← store_taken] at hdevelops
    refine ⟨hdevelops, ⟨_, rfl⟩, fun hv => ?_⟩
    have hholds : b.condition.holds v := by
      change ((m1.taken b).memory.store).Models v at hv
      rw [store_taken] at hv
      exact hv.2 _ (mem_append_right _ (mem_singleton_self _))
    rw [hlength list _ rfl hrun] at hlow
    obtain ⟨hrun', hadmits⟩ | ⟨expected, target, message, hassert, hinvalid⟩ := run_bits hlow
    · by_cases hlistings : 1 < d.listings (Cell.valueOf v list)
      · exact .inr (.inr (hD list rfl hlistings))
      · obtain ⟨b', hbranch', hholds', hsame⟩ := exists_branch hd list v
        obtain rfl := eq_of_holds hd (Nat.le_of_not_lt hlistings) hbranch hbranch' hholds hholds'
        refine .inl ⟨_, rfl, ?_⟩
        rw [hrun', hsame hadmits, hnext]
        exact run_goto_ground hnext
    · obtain ⟨k, c, herror⟩ := hinvalid (m1.ground v s0)
      exact .inr (.inl ⟨_, _, herror, hE _ _ _ hassert k⟩)

end Decision

/-! ## Steps -/

def Terminator.Omits : Terminator → EvalError → Prop
  | assert _ _ _ _, e => ∃ n, e = .invalidBool n
  | call c, e => c.Omits e
  | _, _ => False

/-- A terminator after which known bytes may be elsewhere: a switch that lists the value of symbolic
bytes more than once, or an exchange in a memory that is not marked. -/
def Terminator.Departs (v : Valuation) (m : Machine) : Terminator → Prop
  | switch discr values targets otherwise => ∃ arg list kind m1 m2,
      evalOperand discr m = .ok arg m1 ∧ readArg arg m1 = .ok (.cells list) m2 ∧
      arg.ty.kind = .ok kind ∧
      1 < (Decision.switch kind values targets otherwise).listings (Cell.valueOf v list)
  | call c => c.Departs m
  | _ => False

/-- The errors that the next step of a frame can have on known bytes alone. -/
def Frame.Omits (f : Frame) (e : EvalError) : Prop :=
  ∃ b, blockOf f = .ok b ∧
    match b.statements[f.stmt]? with
    | some (.assign _ rvalue) => rvalue.Omits e
    | some .nop => False
    | none => b.terminator.Omits e

/-- The message of such an error shows nothing of the program. -/
theorem Frame.Omits.fault?_eq_none {f : Frame} {e : EvalError} (h : f.Omits e) : e.fault? = none := by
  obtain ⟨b, -, h⟩ := h
  unfold Terminator.Omits Call.Omits Rvalue.Omits Intrinsic.Omits at h
  have hbare : e.shown = [] := by grind [EvalError.shown]
  rw [EvalError.fault?, hbare]
  rfl

/-- The next step of a frame is one after which known bytes may differ. -/
def Frame.Departs (v : Valuation) (m : Machine) (f : Frame) : Prop :=
  ∃ b, blockOf f = .ok b ∧
    match b.statements[f.stmt]? with
    | some (.assign _ rvalue) => rvalue.CastsTruth v m
    | some .nop => False
    | none => b.terminator.Departs v m

namespace Machine

variable {v : Valuation} {s0 : Store} {E : EvalError → Prop} {D : Prop} {m : Machine}

theorem mirrors_terminate (t : Terminator) (ht : t.Balanced) (i : Nat) (hordered : m.memory.Ordered)
    (hsymbolic : ∀ c, t = .call c → Builtin.ofName? c.callee ≠ some .makeSymbolic)
    (hE : ∀ e, t.Omits e → E e) (hD : t.Departs v m → D) :
    Mirrors (view v s0) E D Eq (terminate t >>= choose i) (terminate t) m := by
  cases t with
  | goto target =>
    exact mirrors_choose (mirrors_advance target) (.bind fun _ => .pure straight_advance) i
  | switch discr values targets otherwise =>
    change Mirrors _ E D Eq ((do
      let arg ← evalOperand discr
      let a ← readArg arg
      let kind ← arg.ty.kind
      (Decision.switch kind values targets otherwise).run a) >>= choose i) (do
      let arg ← evalOperand discr
      let a ← readArg arg
      let kind ← arg.ty.kind
      (Decision.switch kind values targets otherwise).run a) m
    simp only [bind_assoc]
    refine .bind (mirrors_evalOperand discr) fun arg arg' m1 hm1 harg => ?_
    refine .bind (mirrors_readArg harg) fun a a' m2 hm2 ha => ?_
    obtain ⟨ty, -, -⟩ := harg
    refine .sameBind fun kind hkind => ?_
    refine Decision.mirrors_run (d := .switch kind values targets otherwise) ht i ha.agrees ?_ nofun ?_
    · exact fun list _ hlist _ => ha.length list kind hlist hkind
    · rintro list rfl hlistings
      exact hD ⟨_, list, kind, m1, m2, hm1, hm2, hkind, hlistings⟩
  | assert cond expected target message =>
    change Mirrors _ E D Eq ((do
      let arg ← evalOperand cond
      let a ← readArg arg
      (Decision.assert expected target message).run a) >>= choose i) (do
      let arg ← evalOperand cond
      let a ← readArg arg
      (Decision.assert expected target message).run a) m
    simp only [bind_assoc]
    refine .bind (mirrors_evalOperand cond) fun arg arg' m1 hm1 harg => ?_
    refine .bind (mirrors_readArg harg) fun a a' m2 hm2 ha => ?_
    refine Decision.mirrors_run (d := .assert expected target message) trivial i ha.agrees ?_ ?_ ?_
    · intro list r _ hrun
      exact Decision.length_of_assert hrun
    · exact fun _ _ _ _ n => hE _ ⟨n, rfl⟩
    · exact fun _ _ hlistings => absurd hlistings (Nat.not_lt_zero _)
  | call c =>
    exact mirrors_choose (mirrors_call c (hsymbolic c rfl) hordered hE hD) (straight_call c) i
  | ret => exact mirrors_choose mirrors_ret straight_ret i
  | abort | unreachable => exact .of_error rfl

theorem mirrors_stepFrame (f : Frame) (hf : f.function.Balanced) (i : Nat)
    (hordered : m.memory.Ordered)
    (hsymbolic : ∀ c, nextCall? f = some c → Builtin.ofName? c.callee ≠ some .makeSymbolic) :
    Mirrors (view v s0) f.Omits (f.Departs v m) Eq (stepFrame f >>= choose i)
      (stepFrame (f.ground v)) m := by
  have hground : stepFrame (f.ground v) = stepFrame f := rfl
  rw [hground]
  unfold stepFrame
  rw [bind_assoc]
  refine .sameFailureBind fun b hblock => ?_
  cases hstmt : b.statements[f.stmt]? with
  | some s =>
    have hnext {m1 : Machine} : Mirrors (view v s0) f.Omits (f.Departs v m) Eq
        (do
          changeFrame fun f => { f with stmt := f.stmt + 1 }
          return StepResult.advance)
        (do
          changeFrame fun f => { f with stmt := f.stmt + 1 }
          return StepResult.advance) m1 :=
      .bind (mirrors_changeFrame fun _ => rfl) fun _ _ _ _ _ => .pure rfl
    cases s with
    | assign place rvalue =>
      refine mirrors_choose (.bind (mirrors_assign place rvalue ?_ ?_) fun _ _ _ _ _ => hnext) ?_ i
      · exact fun e he => ⟨b, hblock, by rwa [hstmt]⟩
      · exact fun h => ⟨b, hblock, by rwa [hstmt]⟩
      · exact .bind fun _ => .bind fun _ => .pure straight_advance
    | nop => exact mirrors_choose hnext (.bind fun _ => .pure straight_advance) i
  | none =>
    refine mirrors_terminate b.terminator (hf b (mem_of_blockOf hblock)) i hordered ?_ ?_ ?_
    · exact fun c hcall => hsymbolic c (by simp [nextCall?, hblock, hstmt, hcall])
    · exact fun e he => ⟨b, hblock, by rwa [hstmt]⟩
    · exact fun h => ⟨b, hblock, by rwa [hstmt]⟩

end Machine
end SymExec

import SymExec.Machine.Step
import SymExec.Proofs.Lengths

/-!
# What a step can do

A step is made of operations on memory and store and of changes of the call stack. Most of them
change what allocations hold, and where the innermost frame stands: a relation that respects these is
`Machine.Quiet`, and `Machine.Silent` if it need not let the frame move. A call also allocates locals
and pushes a frame, a return frees them and pops it, and two builtins allocate and free. A relation
that respects what is done to memory is `Machine.Stackless`. One that respects all of it
(`Machine.Closed`) relates the machine before a step to the machine after it, however the step ends
(`Closed.stepFrame`). Two operations are left to the caller, who may know that the step does not
perform them: making bytes symbolic, and assuming a condition.

If a proposition `P` rules out arrays of negative length, no operation is asked for a negative number
of bytes as long as `P` holds.
-/
namespace SymExec

open Run List Memory

/-- The operations on memory that change what allocations hold, apart from making bytes symbolic. The
text of a constant is held by an allocation of its own. -/
inductive Memory.Edit (P : Prop) : {α : Type} → Run Memory α → Prop where
  | allocateStatic (data : List (BitVec 8)) : Edit P (allocateStatic data)
  | markPacked (p : Pointer) {size : Int} (h : P → 0 ≤ size) : Edit P (markPacked p size)
  | writeRepeat (p : Pointer) (cell : Cell) (count align : Int) :
    Edit P (writeRepeat p cell count align)
  | markDefinedness (p : Pointer) {size : Int} (defined : Bool) (h : P → 0 ≤ size) :
    Edit P (markDefinedness p size defined)
  | copyBytes (source dest : Pointer) {size : Int} (align : Int) (h : P → 0 ≤ size) :
    Edit P (copyBytes source dest size align)
  | writeScalar (p : Pointer) (v : Scalar) {size : Int} (align : Int) (h : P → 0 ≤ size) :
    Edit P (writeScalar p v size align)

/-- The operations on the store that a step is made of, apart from conditions. -/
inductive Store.Operation : {α : Type} → Run Store α → Prop where
  | binary (op : BinOp) (lhs rhs : Scalar) (kind : Kind) (rhsKind : Option Kind) :
    Operation (Operator.binary op lhs rhs kind rhsKind)
  | overflowing (op : BinOp) (lhs rhs : Scalar) (kind : Kind) (rhsKind : Option Kind) :
    Operation (Operator.overflowing op lhs rhs kind rhsKind)
  | unary (op : UnOp) (v : Scalar) (kind : Kind) : Operation (Operator.unary op v kind)
  | cast (v : Scalar) (source dest : Ty) : Operation (Cast.cast v source dest)
  | word (op : BinOp) (lhs rhs : Scalar) (kind : Kind) (rhsKind : Option Kind) :
    Operation (Store.binary op lhs rhs kind rhsKind)
  | select (cond yes no : Scalar) (kind : Kind) : Operation (Store.select cond yes no kind)
  | countBits (way : BitCount) (v : Scalar) (kind : Kind) : Operation (Store.countBits way v kind)

attribute [grind ←] Memory.Edit.allocateStatic Memory.Edit.markPacked Memory.Edit.writeRepeat
  Memory.Edit.markDefinedness Memory.Edit.copyBytes Memory.Edit.writeScalar
  Store.Operation.binary Store.Operation.overflowing Store.Operation.unary Store.Operation.cast
  Store.Operation.word Store.Operation.select Store.Operation.countBits

namespace Machine

variable {α : Type} {c : Call} {P : Prop} {f : Frame} {b : Block}
  {m' : Machine} {function : Function}

/-- A relation that every change of contents and store respects. -/
structure Silent (P : Prop) (R : Machine → Machine → Prop) : Prop extends Composes R where
  edit {α : Type} {act : Run Memory α} (h : Memory.Edit P act) : Keeps R (onMemory act)
  store {α : Type} {act : Run Store α} (h : Store.Operation act) : Keeps R (onStore act)

/-- A relation that is silent, and lets the innermost frame go on elsewhere. -/
structure Quiet (P : Prop) (R : Machine → Machine → Prop) : Prop extends Silent P R where
  /-- The innermost frame goes on elsewhere. -/
  move (m : Machine) (f : Frame) (rest : List Frame) (block : Int) (stmt : Nat)
    (h : m.stack = f :: rest) : R m { m with stack := { f with block := block, stmt := stmt } :: rest }

/-- A relation that every change of memory and store respects. -/
structure Stackless (P : Prop) (R : Machine → Machine → Prop) : Prop extends Silent P R where
  allocate {size : Int} (align : Int) (region : Region) (h : P → 0 ≤ size) :
    Keeps R (onMemory (allocate size align region))
  deallocate (p : Pointer) (region : Option Region) : Keeps R (onMemory (deallocate p region))

/-- A relation that every change of memory, store and stack respects. -/
structure Closed (P : Prop) (R : Machine → Machine → Prop) : Prop
    extends Quiet P R, Stackless P R where
  push (m : Machine) (f : Frame) (h : ∃ name, m.program.find? name = some f.function) :
    R m { m with stack := f :: m.stack }
  pop (m : Machine) : R m { m with stack := m.stack.drop 1 }

def nextCall? (f : Frame) : Option Call :=
  match blockOf f with
  | .ok b =>
    match b.statements[f.stmt]?, b.terminator with
    | none, .call c => some c
    | _, _ => none
  | .error _ => none

theorem of_nextCall? (h : nextCall? f = some c) : ∃ b, blockOf f = .ok b ∧ b.terminator = .call c := by
  unfold nextCall? at h
  split at h
  · rename_i b hblock
    split at h
    · rename_i hterm
      cases h
      exact ⟨b, hblock, hterm⟩
    · cases h
  · cases h

theorem mem_of_blockOf (h : blockOf f = .ok b) : b ∈ f.function.blocks := by
  unfold blockOf at h
  split at h
  · cases h
  · split at h
    · rename_i hitem
      cases h
      exact Section.mem_of_item? hitem
    · cases h

theorem types_of_nextCall? (hf : f.function.Fits P) (hc : nextCall? f = some c) :
    ∀ t ∈ c.types, t.Fits P := by
  intro t ht
  obtain ⟨b, hblock, hterm⟩ := of_nextCall? hc
  refine hf t (mem_append_right _ (mem_flatMap.2 ⟨b, mem_of_blockOf hblock, ?_⟩))
  refine mem_append_right _ ?_
  rwa [hterm]

theorem stepFrame_of_statement {s : Statement} (hblock : blockOf f = .ok b)
    (hstmt : b.statements[f.stmt]? = some s) : stepFrame f = stepStatement s := by
  unfold stepFrame
  rw [hblock]
  funext m
  refine (bind_of_ok rfl).trans ?_
  rw [hstmt]

theorem stepFrame_of_terminator (hblock : blockOf f = .ok b) (hstmt : b.statements[f.stmt]? = none) :
    stepFrame f = terminate b.terminator := by
  unfold stepFrame
  rw [hblock]
  funext m
  refine (bind_of_ok rfl).trans ?_
  rw [hstmt]

theorem callOther_of_builtin {b : Builtin} (h : Builtin.ofName? c.callee = some b) (args : List Arg)
    (dest : Option PlaceRef) : callOther c args dest = callBuiltin b args dest c.typeArgs := by
  unfold callOther
  rw [h]

/-- A call enters a function of the program, or carries out a builtin or an intrinsic. -/
theorem callWith_eq (c : Call) (args : List Arg) (dest : Option PlaceRef) (m : Machine) :
    callWith c args dest m =
      if !c.callee.isName then .error .crash m
      else
        match m.program.find? c.callee with
        | some function => (do
            pushFrame function args (dest.map PlaceRef.ptr) c.target
            pure StepResult.advance : Run Machine StepResult) m
        | none => (do
            callOther c args dest
            afterCall c) m := by
  unfold callWith
  by_cases hname : (!c.callee.isName) = true
  · simp only [if_pos hname]
    rfl
  · simp only [if_neg hname]
    refine (bind_of_ok (getThe_apply m)).trans ?_
    cases m.program.find? c.callee <;> rfl

theorem pushFrame_eq_ok {args : List Arg} {returnPtr : Option Pointer} {returnTarget : Option Int}
    {m : Machine} (h : pushFrame function args returnPtr returnTarget m = .ok () m') :
    ∃ locals m1, allocateLocals function.locals m = .ok locals m1 ∧
      passArgs (args.zip ((locals.zip function.locals).drop 1))
        { m1 with stack := ⟨function, locals, 0, 0, returnPtr, returnTarget⟩ :: m1.stack }
        = .ok () m' := by
  obtain ⟨_, _, hget, h⟩ := bind_eq_ok.1 h
  cases hget
  dsimp only at h
  split at h
  · rw [bind_of_error (failReporting_apply _ _ m)] at h
    cases h
  · split at h
    · cases h
    · obtain ⟨locals, m1, hlocals, h⟩ := bind_eq_ok.1 h
      exact ⟨locals, m1, hlocals, h⟩

theorem freeLocals_cons (p : Pointer) (locals : List Pointer) :
    freeLocals (p :: locals) = (do
      onMemory (deallocate p (some .stack))
      freeLocals locals) := by
  simp [freeLocals]

theorem resume_eq (f : Frame) (m : Machine) :
    resume f m =
      if m.stack.drop 1 = [] then .ok .done { m with stack := m.stack.drop 1 }
      else
        match f.returnTarget with
        | some target => .ok .advance ((goto target).final { m with stack := m.stack.drop 1 })
        | none => .error (.error (.functionReturned f.function.name))
            { m with stack := m.stack.drop 1 } := by
  refine (bind_of_ok (modify_apply _ m)).trans ((bind_of_ok (getThe_apply _)).trans ?_)
  by_cases hempty : m.stack.drop 1 = []
  · simp only [hempty, isEmpty_nil, if_true]
    rfl
  · simp only [List.isEmpty_iff, hempty, if_false]
    cases f.returnTarget <;> rfl

/-- Bytes may be made symbolic. -/
def Symbolizes (R : Machine → Machine → Prop) : Prop :=
  ∀ p size, Keeps R (onMemory (makeSymbolic p size))

/-- The condition that symbolic bytes are true may be added to the path. -/
def Assumes (R : Machine → Machine → Prop) : Prop :=
  ∀ list, Keeps R (onStore do
    let s ← get
    Store.require (← s.truth (.cells list)))

theorem onMemory_eq_ok {act : Run Memory α} {m : Machine} {a : α} (h : onMemory act m = .ok a m') :
    ∃ memory, act m.memory = .ok a memory ∧ m' = { m with memory := memory } := by
  unfold onMemory at h
  split at h
  · rename_i memory hact
    cases h
    exact ⟨memory, hact, rfl⟩
  · cases h

theorem final_onMemory (act : Run Memory α) (m : Machine) :
    (onMemory act).final m = { m with memory := act.final m.memory } := by
  unfold final onMemory
  cases act m.memory <;> rfl

theorem program_onMemory (act : Run Memory α) (m : Machine) :
    ((onMemory act).final m).program = m.program := by
  rw [final_onMemory]

theorem fits_onMemory {m : Machine} (hm : m.Fits P) (act : Run Memory α) :
    ((onMemory act).final m).Fits P := by
  rw [final_onMemory]
  exact ⟨hm.program, hm.functions⟩

theorem frame_of_stack {m : Machine} {rest : List Frame} (h : m.stack = f :: rest) :
    frame m = .ok f m := by
  refine (bind_of_ok (getThe_apply m)).trans ?_
  simp only [h]
  rfl

theorem final_changeFrame (f : Frame → Frame) (m : Machine) :
    (changeFrame f).final m = match m.stack with
      | top :: rest => { m with stack := f top :: rest }
      | [] => m := rfl

structure IntrinsicCall.Fits (P : Prop) (c : IntrinsicCall) : Prop where
  args : ∀ a ∈ c.args, a.ty.Fits P
  dest : ∀ d ∈ c.dest, d.ty.Fits P
  typeArgs : ∀ t ∈ c.typeArgs, t.Fits P

namespace IntrinsicCall.Fits

variable {P : Prop} {c : IntrinsicCall} (hc : c.Fits P)
include hc

@[grind →] theorem arg {index : Nat} {a : Arg} (h : c.arg index = .ok a) : a.ty.Fits P := by
  unfold IntrinsicCall.arg at h
  split at h
  · rename_i hget
    cases h
    exact hc.args _ (mem_of_getElem? hget)
  · cases h

@[grind →] theorem elemType {ty : Ty} (h : c.elemType = .ok ty) : ty.Fits P := by
  unfold IntrinsicCall.elemType at h
  split at h
  · rename_i htypes
    cases h
    exact hc.typeArgs ty (by simp [htypes])
  · obtain ⟨a, ha, h⟩ := bind_iff.1 h
    exact (hc.arg ha).pointee (lift_eq_ok.1 h)

end IntrinsicCall.Fits

/-- As long as the types fit `P`, they stay so, and `R` relates the machines. -/
def Along (P : Prop) (R : Machine → Machine → Prop) (m m' : Machine) : Prop :=
  m.Fits P → m'.Fits P ∧ R m m'

theorem symbolizes_along {R : Machine → Machine → Prop} (h : Symbolizes R) :
    Symbolizes (Along P R) := fun p size m hm => ⟨fits_onMemory hm _, h p size m⟩

theorem assumes_along {R : Machine → Machine → Prop} (h : Assumes R) :
    Assumes (Along P R) := fun list m hm => ⟨fits_onMemory hm _, h list m⟩

namespace Silent

variable {P : Prop} {R : Machine → Machine → Prop} (hR : Silent P R)
include hR

attribute [grind →] Silent.toComposes
attribute [grind .] Silent.edit Silent.store

variable {args : List Arg} {β : Type} {dest : Option PlaceRef}

@[grind .] theorem readScalar (p : Pointer) (ty : Ty) : Keeps R (readScalar p ty) := by
  unfold Machine.readScalar
  grind

@[grind .] theorem writeScalar (p : Pointer) (v : Scalar) {ty : Ty} (hty : ty.Fits P)
    (aligned : Bool) : Keeps R (writeScalar p v ty aligned) := by
  unfold Machine.writeScalar
  grind

@[grind .] theorem readPair (p : Pointer) (ty : Ty) : Keeps R (readPair p ty) := by
  unfold Machine.readPair
  grind

@[grind .] theorem writePair (p : Pointer) (first second : Scalar) {ty : Ty} (hty : ty.Fits P)
    (aligned : Bool) : Keeps R (writePair p first second ty aligned) := by
  have hsize : (0 : Int) ≤ pointerSize := Int.natCast_nonneg _
  unfold Machine.writePair
  refine hR.bind (by grind) fun fat => ?_
  split
  · grind
  · refine hR.bindReturns (by grind) fun fields hfields => ?_
    have hfits := pairFields_fits hty hfields.liftError
    grind

@[grind .] theorem writeValue (p : Pointer) (v : Value) {ty : Ty} (hty : ty.Fits P)
    (aligned : Bool) : Keeps R (writeValue p v ty aligned) := by
  unfold Machine.writeValue
  grind

@[grind .] theorem readArg (arg : Arg) : Keeps R (readArg arg) := by
  unfold Machine.readArg
  grind

/-! ## Places and operands -/

@[grind .] theorem frame : Keeps R frame := by
  unfold Machine.frame
  grind

@[grind .] theorem deref (ref : PlaceRef) : Keeps R (deref ref) := by
  unfold Machine.deref
  grind

@[grind .] theorem project (f : Frame) (ref : PlaceRef) (p : Projection) :
    Keeps R (project f ref p) := by
  unfold Machine.project
  grind

@[grind .] theorem evalPlace (place : Place) : Keeps R (evalPlace place) := by
  unfold Machine.evalPlace
  grind

@[grind .] theorem evalConstant (value : Json) (ty : Ty) : Keeps R (evalConstant value ty) := by
  unfold Machine.evalConstant
  grind

@[grind .] theorem evalOperand (operand : Operand) : Keeps R (evalOperand operand) := by
  unfold Machine.evalOperand
  grind

/-! ## Types that are met on the way -/

omit hR in
theorem along_composes (hR : Composes R) : Composes (Along P R) where
  refl m hm := ⟨hm, hR.refl m⟩
  trans h h' hm := ⟨(h' (h hm).1).1, hR.trans (h hm).2 (h' (h hm).1).2⟩

theorem along : Silent P (Along P R) where
  toComposes := along_composes hR.toComposes
  edit h m hm := ⟨fits_onMemory hm _, hR.edit h m⟩
  store h m hm := ⟨fits_onMemory hm _, hR.store h m⟩

/-- What follows a result may use what holds of it as long as the types fit. -/
theorem alongBind {Q : α → Prop} {act : Run Machine α} {f : α → Run Machine β}
    (h : Keeps (Along P R) act) (hQ : ∀ m a m', m.Fits P → act m = .ok a m' → Q a)
    (hf : ∀ a, Q a → Keeps (Along P R) (f a)) : Keeps (Along P R) (act >>= f) := fun m hm =>
  hR.along.bind_final (h m) (fun a m' hact => hf a (hQ m a m' hm hact) m') hm

theorem placeBind {place : Place} {f : PlaceRef → Run Machine β}
    (hf : ∀ ref, ref.ty.Fits P → Keeps (Along P R) (f ref)) :
    Keeps (Along P R) (Machine.evalPlace place >>= f) :=
  hR.alongBind (hR.along.evalPlace place) (fun _ _ _ hm h => evalPlace_fits hm h) hf

/-! ## Statements -/

@[grind .] theorem castValue (v : Scalar) (source dest : Ty) : Keeps R (castValue v source dest) := by
  unfold Machine.castValue
  grind

@[grind .] theorem castTo {dest : PlaceRef} (hdest : dest.ty.Fits P) (source : Arg) :
    Keeps R (castTo dest source) := by
  unfold Machine.castTo
  refine hR.bind (by grind) fun fat => ?_
  split
  · grind
  · refine hR.bind (by grind) fun fat => ?_
    split
    · cases source.value <;> grind
    · grind

theorem assign (place : Place) {rvalue : Rvalue} (h : ∀ t ∈ rvalue.types, t.Fits P) :
    Keeps (Along P R) (assign place rvalue) := by
  have hA := hR.along
  unfold Machine.assign
  refine hR.placeBind fun dest hdest => ?_
  cases rvalue with
  | binary op lhs rhs | checked op lhs rhs =>
    refine hA.bind (by grind) fun lhs => hA.bind (by grind) fun rhs => ?_
    grind
  | use | unary | cast | ref | len => grind

/-! ## Intrinsics -/

@[grind .] theorem prim (c : IntrinsicCall) (index : Nat) : Keeps R (c.prim index) := by
  unfold IntrinsicCall.prim
  grind

@[grind .] theorem pointer (c : IntrinsicCall) (index : Nat) : Keeps R (c.pointer index) := by
  unfold IntrinsicCall.pointer
  grind

@[grind .] theorem count (c : IntrinsicCall) (index : Nat) : Keeps R (c.count index) := by
  unfold IntrinsicCall.count
  grind

@[grind .] theorem overflowArith (c : IntrinsicCall) (op : OverflowOp) :
    Keeps R (overflowArith c op) := by
  unfold Machine.overflowArith
  grind

@[grind .] theorem symbolicOffset (base count : Scalar) (size : Int) :
    Keeps R (symbolicOffset base count size) := by
  unfold Machine.symbolicOffset
  grind

@[grind .] theorem knownOffset (base : Scalar) (delta : Int) (wrapping : Bool) :
    Keeps R (knownOffset base delta wrapping) := by
  unfold Machine.knownOffset
  split
  · refine hR.bind (by grind) fun moved => ?_
    grind
  · grind

@[grind .] theorem valueExtent (c : IntrinsicCall) : Keeps R (valueExtent c) := by
  unfold Machine.valueExtent
  refine hR.bind (by grind) fun arg => ?_
  split <;> grind

@[grind .] theorem writeBytes (c : IntrinsicCall) : Keeps R (writeBytes c) := by
  unfold Machine.writeBytes
  refine hR.bind (by grind) fun ty => hR.bind (by grind) fun dest => ?_
  refine hR.bind (by grind) fun byte => hR.bind (by grind) fun count => ?_
  grind

@[grind .] theorem typeName (c : IntrinsicCall) : Keeps R (typeName c) := by
  have := Ty.fits_strRef (P := P)
  unfold Machine.typeName
  grind

section Intrinsics

variable {c : IntrinsicCall} (hc : c.Fits P)
include hc

@[grind .] theorem result (v : Scalar) : Keeps R (c.result v) := by
  have := hc.dest
  unfold IntrinsicCall.result
  grind

@[grind .] theorem resultUsize (n : Int) : Keeps R (c.resultUsize n) := by
  unfold IntrinsicCall.resultUsize
  grind

@[grind .] theorem resultPair (first second : Scalar) : Keeps R (c.resultPair first second) := by
  have := hc.dest
  unfold IntrinsicCall.resultPair
  grind

@[grind .] theorem arith (op : BinOp) : Keeps R (arith c op) := by
  unfold Machine.arith
  grind

@[grind .] theorem countBits (way : BitCount) (nonzero : Bool) :
    Keeps R (countBits c way nonzero) := by
  unfold Machine.countBits
  grind

@[grind .] theorem exchange : Keeps R (exchange c) := by
  unfold Machine.exchange
  grind

@[grind .] theorem compareExchange : Keeps R (compareExchange c) := by
  unfold Machine.compareExchange
  refine hR.bindReturns (by grind) fun ty hty => hR.bind (by grind) fun kind => ?_
  refine hR.bind (by grind) fun p => hR.bind (by grind) fun expected => ?_
  refine hR.bind (by grind) fun new => ?_
  grind

@[grind .] theorem fetch (op : FetchOp) : Keeps R (fetch c op) := by
  unfold Machine.fetch
  grind

@[grind .] theorem copy : Keeps R (copy c) := by
  unfold Machine.copy
  refine hR.bindReturns (by grind) fun ty hty => hR.bind (by grind) fun count => ?_
  refine hR.bind (by grind) fun source => hR.bind (by grind) fun dest => ?_
  refine hR.bindReturns (by grind) fun size hsize => hR.bind (by grind) fun align => ?_
  refine hR.edit (.copyBytes source dest align fun hP => ?_)
  have hnonneg := (hc.elemType hty.lift).size_nonneg hsize.liftError hP
  exact Int.mul_nonneg hnonneg (Int.natCast_nonneg count)

@[grind .] theorem transmute : Keeps R (transmute c) := by
  have := hc.dest
  unfold Machine.transmute
  split
  · grind
  · refine hR.bindReturns (by grind) fun source hsource => ?_
    refine hR.bindReturns (by grind) fun size hsize => ?_
    grind

@[grind .] theorem offset (wrapping : Bool) : Keeps R (offset c wrapping) := by
  unfold Machine.offset
  grind

@[grind .] theorem floatMath (fn : FloatFn) (single : Bool) : Keeps R (floatMath c fn single) := by
  unfold Machine.floatMath
  grind

/-- The one intrinsic that adds a condition to the path is `assume`. -/
@[grind .] theorem perform (h : c.intrinsic = .assume → Assumes R) : Keeps R (perform c) := by
  have := hc.dest
  unfold Machine.perform
  by_cases hassume : c.intrinsic = .assume
  · rw [hassume]
    refine hR.bind (hR.prim c 0) fun v => ?_
    split
    · exact h hassume _
    · grind
  · grind

@[grind .] theorem callIntrinsic (h : c.intrinsic = .assume → Assumes R) :
    Keeps R (callIntrinsic c) := by
  unfold Machine.callIntrinsic
  grind

end Intrinsics

/-! ## Calls -/

@[grind .] theorem panicMessage (args : List Arg) : Keeps R (panicMessage args) := by
  unfold Machine.panicMessage
  grind

theorem passArgs {args : List (Arg × Pointer × Ty)} (h : ∀ a ∈ args, a.2.2.Fits P) :
    Keeps R (passArgs args) := by
  refine hR.bind (hR.forIn (fun a ha u => ?_) ()) fun _ => hR.pure ()
  have := h a ha
  grind

theorem handOver (f : Frame) : Keeps R (handOver f) := by
  unfold Machine.handOver
  split <;> grind

theorem mapM_operands {operands : List Operand} (h : ∀ o ∈ operands, ∀ t ∈ o.types, t.Fits P)
    {m : Machine} (hm : m.Fits P) (hargs : operands.mapM Machine.evalOperand m = .ok args m') :
    ∀ a ∈ args, a.ty.Fits P := by
  induction operands generalizing m args with
  | nil =>
    rw [mapM_nil] at hargs
    cases hargs
    simp
  | cons o operands ih =>
    rw [mapM_cons] at hargs
    obtain ⟨a, m1, ha, hargs⟩ := bind_eq_ok.1 hargs
    obtain ⟨as, m2, has, ⟨⟩⟩ := bind_eq_ok.1 hargs
    have hm1 := (hR.along.evalOperand o m hm).1
    rw [final_of_ok ha] at hm1
    intro b hb
    rcases mem_cons.1 hb with rfl | hb
    · exact evalOperand_fits hm (h o mem_cons_self) ha
    · exact ih (fun o ho => h o (mem_cons_of_mem _ ho)) hm1 has b hb

@[grind .] theorem evalCall (c : Call) : Keeps R (evalCall c) := by
  unfold Machine.evalCall
  grind

theorem evalCall_fits (hc : ∀ t ∈ c.types, t.Fits P) {m : Machine} (hm : m.Fits P)
    (h : Machine.evalCall c m = .ok (args, dest) m') :
    (∀ a ∈ args, a.ty.Fits P) ∧ ∀ d ∈ dest, d.ty.Fits P := by
  obtain ⟨args, m1, hargs, h⟩ := bind_eq_ok.1 h
  obtain ⟨dest, m2, hdest, ⟨⟩⟩ := bind_eq_ok.1 h
  have hkeeps : Keeps (Along P R) (c.args.mapM Machine.evalOperand) :=
    hR.along.mapM fun o _ => hR.along.evalOperand o
  have hm1 := (hkeeps m hm).1
  rw [final_of_ok hargs] at hm1
  constructor
  · refine hR.mapM_operands (fun o ho t ht => hc t ?_) hm hargs
    exact mem_append_left _ (mem_flatMap.2 ⟨o, ho, ht⟩)
  · cases hplace : c.dest with
    | none =>
      rw [hplace] at hdest
      cases hdest
      simp
    | some place =>
      rw [hplace] at hdest
      obtain ⟨d, m3, hd, ⟨⟩⟩ := bind_eq_ok.1 hdest
      simpa using evalPlace_fits hm1 hd

theorem callNamed (hb : Builtin.ofName? c.callee = none) (hc : ∀ t ∈ c.types, t.Fits P)
    (hargs : ∀ a ∈ args, a.ty.Fits P) (hdest : ∀ d ∈ dest, d.ty.Fits P)
    (hassume : ∀ name, c.callee = .str name → Intrinsic.ofName? name = some .assume → Assumes R) :
    Keeps R (callOther c args dest) := by
  unfold callOther
  split
  · rename_i b hsome
    rw [hb] at hsome
    cases hsome
  · split
    · rename_i name hbuiltin hname _ intrinsic hintrinsic
      have hfits : IntrinsicCall.Fits P ⟨intrinsic, name, args, dest, c.typeArgs⟩ :=
        ⟨hargs, hdest, fun t ht => hc t (mem_append_right _ ht)⟩
      exact hR.callIntrinsic hfits fun h => hassume name hname (h ▸ hintrinsic)
    · exact hR.fail _
  · exact hR.throw _

end Silent

namespace Quiet

variable {P : Prop} {R : Machine → Machine → Prop} (hR : Quiet P R)
include hR

attribute [grind →] Quiet.toSilent

/-! ## Frames -/

theorem changeFrame {f : Frame → Frame}
    (hf : ∀ g, ∃ block stmt, f g = { g with block := block, stmt := stmt }) :
    Keeps R (changeFrame f) := by
  intro m
  rw [final_changeFrame]
  split
  · rename_i top rest hstack
    obtain ⟨block, stmt, hmoved⟩ := hf top
    rw [hmoved]
    exact hR.move m top rest block stmt hstack
  · exact hR.refl m

@[grind .] theorem goto (block : Int) : Keeps R (goto block) :=
  hR.changeFrame fun _ => ⟨block, 0, rfl⟩

theorem nextStatement :
    Keeps R (Machine.changeFrame fun f => { f with stmt := f.stmt + 1 }) :=
  hR.changeFrame fun g => ⟨g.block, g.stmt + 1, rfl⟩

omit hR in
theorem fits_of_stack {m : Machine} (hm : m.Fits P) (hprogram : m'.program = m.program)
    (hstack : ∀ f ∈ m'.stack, ∃ g ∈ m.stack, g.function = f.function) : m'.Fits P := by
  refine ⟨hprogram ▸ hm.program, fun f hf => ?_⟩
  obtain ⟨g, hg, hsame⟩ := hstack f hf
  exact hsame ▸ hm.functions g hg

theorem along : Quiet P (Along P R) where
  toSilent := hR.toSilent.along
  move m f rest block stmt h hm := by
    refine ⟨fits_of_stack hm rfl fun g hg => ?_, hR.move m f rest block stmt h⟩
    rcases mem_cons.1 hg with rfl | hg
    · exact ⟨f, by simp [h], rfl⟩
    · exact ⟨g, by simp [h, hg], rfl⟩

/-! ## Branches -/

@[grind .] theorem switchOn (v : Scalar) (kind : Kind) (values targets : List Int)
    (otherwise : Int) : Keeps R (switchOn v kind values targets otherwise) := by
  unfold Machine.switchOn
  split <;> grind

@[grind .] theorem switch (discr : Operand) (values targets : List Int) (otherwise : Int) :
    Keeps R (switch discr values targets otherwise) := by
  unfold Machine.switch
  grind

@[grind .] theorem assertOn (v : Scalar) (expected : Bool) (target : Int) (message : Json) :
    Keeps R (assertOn v expected target message) := by
  unfold Machine.assertOn
  grind

@[grind .] theorem assert (cond : Operand) (expected : Bool) (target : Int) (message : Json) :
    Keeps R (assert cond expected target message) := by
  unfold Machine.assert
  grind

theorem afterCall (c : Call) : Keeps R (afterCall c) := by
  unfold Machine.afterCall
  grind

/-! ## Steps -/

theorem stepStatement {s : Statement} (h : ∀ t ∈ s.types, t.Fits P) :
    Keeps (Along P R) (stepStatement s) := by
  have hA := hR.along
  have hnext : Keeps (Along P R) (do
      Machine.changeFrame fun f => { f with stmt := f.stmt + 1 }
      pure StepResult.advance) := hA.bind hA.nextStatement fun _ => hA.pure _
  cases s with
  | assign place rvalue => exact hA.bind (hR.assign place h) fun _ => hnext
  | nop => exact hnext

/-- A step of a frame is quiet unless it is a call or a return. -/
theorem stepFrame_cases {f : Frame} (hf : f.function.Fits P) :
    (∃ c, nextCall? f = some c ∧ stepFrame f = Machine.call c) ∨
      nextCall? f = none ∧ (Keeps (Along P R) (stepFrame f) ∨ stepFrame f = Machine.ret) := by
  have hA := hR.along
  cases hblock : blockOf f with
  | error e =>
    unfold stepFrame
    rw [hblock]
    exact .inr ⟨by simp [nextCall?, hblock], .inl (hA.liftBind fun b hb => by cases hb)⟩
  | ok b =>
    have hb : b ∈ f.function.blocks := mem_of_blockOf hblock
    cases hstmt : b.statements[f.stmt]? with
    | some s =>
      rw [stepFrame_of_statement hblock hstmt]
      refine .inr ⟨by simp [nextCall?, hblock, hstmt], .inl (hR.stepStatement fun t ht => hf t ?_)⟩
      refine mem_append_right _ (mem_flatMap.2 ⟨b, hb, ?_⟩)
      exact mem_append_left _ (mem_flatMap.2 ⟨s, mem_of_getElem? hstmt, ht⟩)
    | none =>
      rw [stepFrame_of_terminator hblock hstmt]
      cases hterm : b.terminator with
      | call c => exact .inl ⟨c, by simp [nextCall?, hblock, hstmt, hterm], rfl⟩
      | ret => exact .inr ⟨by simp [nextCall?, hblock, hstmt, hterm], .inr rfl⟩
      | goto | switch | assert | abort | unreachable =>
        refine .inr ⟨by simp [nextCall?, hblock, hstmt, hterm], .inl ?_⟩
        unfold Machine.terminate
        grind

end Quiet

namespace Stackless

variable {P : Prop} {R : Machine → Machine → Prop} (hR : Stackless P R)
include hR

attribute [grind →] Stackless.toSilent
attribute [grind .] Stackless.allocate Stackless.deallocate

variable {dest : Option PlaceRef}

theorem allocateLocals {types : List Ty} (h : ∀ t ∈ types, t.Fits P) :
    Keeps R (allocateLocals types) := by
  refine hR.mapM fun ty hty => ?_
  have := h ty hty
  grind

theorem freeLocals (locals : List Pointer) : Keeps R (freeLocals locals) :=
  hR.bind (hR.forIn (fun p _ _ => by grind) _) fun _ => hR.pure ()

@[grind .] theorem performBuiltin (b : Builtin) (args : List Arg) (hdest : ∀ d ∈ dest, d.ty.Fits P)
    (typeArgs : List Ty) (h : b = .makeSymbolic → Symbolizes R) :
    Keeps R (performBuiltin b args dest typeArgs) := by
  unfold Machine.performBuiltin
  split
  · grind
  · refine hR.bind (by grind) fun size => hR.bind (by grind) fun align => ?_
    refine hR.bind (by grind) fun n => hR.bind (by grind) fun a => ?_
    exact hR.bind (hR.allocate a .heap fun _ => Int.natCast_nonneg n) fun p => by grind
  · refine hR.bind (by grind) fun p => hR.bind (by grind) fun p => hR.bind (by grind) fun size => ?_
    grind
  · have hsymbolic := h rfl
    unfold Symbolizes at hsymbolic
    split <;> grind
  · grind

@[grind .] theorem callBuiltin (b : Builtin) (args : List Arg) (hdest : ∀ d ∈ dest, d.ty.Fits P)
    (typeArgs : List Ty) (h : b = .makeSymbolic → Symbolizes R) :
    Keeps R (callBuiltin b args dest typeArgs) := by
  unfold Machine.callBuiltin
  grind

theorem callOther {c : Call} {args : List Arg} (hc : ∀ t ∈ c.types, t.Fits P)
    (hargs : ∀ a ∈ args, a.ty.Fits P) (hdest : ∀ d ∈ dest, d.ty.Fits P)
    (hsymbolic : Builtin.ofName? c.callee = some .makeSymbolic → Symbolizes R)
    (hassume : ∀ name, c.callee = .str name → Intrinsic.ofName? name = some .assume → Assumes R) :
    Keeps R (callOther c args dest) := by
  cases hb : Builtin.ofName? c.callee with
  | none => exact hR.callNamed hb hc hargs hdest hassume
  | some b =>
    rw [callOther_of_builtin hb]
    exact hR.callBuiltin b args hdest c.typeArgs fun h => hsymbolic (h ▸ hb)

end Stackless

namespace Closed

variable {P : Prop} {R : Machine → Machine → Prop} (hR : Closed P R)
include hR

attribute [grind →] Closed.toQuiet Closed.toStackless

variable {m : Machine}

theorem along : Closed P (Along P R) where
  toQuiet := hR.toQuiet.along
  allocate align region h m hm := ⟨fits_onMemory hm _, hR.allocate align region h m⟩
  deallocate p region m hm := ⟨fits_onMemory hm _, hR.deallocate p region m⟩
  push m f h hm := by
    refine ⟨⟨hm.program, fun g hg => ?_⟩, hR.push m f h⟩
    rcases mem_cons.1 hg with rfl | hg
    · obtain ⟨name, hname⟩ := h
      exact hm.program _ (mem_of_find?_eq_some hname)
    · exact hm.functions g hg
  pop m hm := ⟨⟨hm.program, fun g hg => hm.functions g (mem_of_mem_drop hg)⟩, hR.pop m⟩

theorem withProgram : Closed P fun m m' => m'.program = m.program ∧ R m m' where
  refl m := ⟨rfl, hR.refl m⟩
  trans h h' := ⟨h'.1.trans h.1, hR.trans h.2 h'.2⟩
  edit h m := ⟨program_onMemory _ m, hR.edit h m⟩
  store h m := ⟨program_onMemory _ m, hR.store h m⟩
  move m f rest block stmt h := ⟨rfl, hR.move m f rest block stmt h⟩
  allocate align region h m := ⟨program_onMemory _ m, hR.allocate align region h m⟩
  deallocate p region m := ⟨program_onMemory _ m, hR.deallocate p region m⟩
  push m f h := ⟨rfl, hR.push m f h⟩
  pop m := ⟨rfl, hR.pop m⟩

/-! ## Calls -/

theorem pushFrame {function : Function} (args : List Arg) (returnPtr : Option Pointer)
    (returnTarget : Option Int) (h : ∃ name, m.program.find? name = some function) :
    Along P R m ((pushFrame function args returnPtr returnTarget).final m) := by
  intro hm
  have hlocals : ∀ t ∈ function.locals, t.Fits P := by
    obtain ⟨name, hname⟩ := h
    exact fun t ht => hm.program _ (mem_of_find?_eq_some hname) t (mem_append_left _ ht)
  -- the function is in the program when its frame is pushed, since the program stays the same
  let found (m : Machine) : Prop := ∃ name, m.program.find? name = some function
  have hT := hR.along.withProgram
  have hS : Composes fun m m' => found m → m'.program = m.program ∧ Along P R m m' := by
    refine ⟨fun m _ => hT.refl m, fun h h' hm => ?_⟩
    have hfirst := h hm
    exact hT.trans hfirst (h' (by simpa only [found, hfirst.1] using hm))
  have hmono {α : Type} {act : Run Machine α}
      (hact : Keeps (fun m m' => m'.program = m.program ∧ Along P R m m') act) :
      Keeps (fun m m' => found m → m'.program = m.program ∧ Along P R m m') act :=
    fun m _ => hact m
  have hkeeps : Keeps (fun m m' => found m → m'.program = m.program ∧ Along P R m m')
      (Machine.pushFrame function args returnPtr returnTarget) := by
    unfold Machine.pushFrame
    refine hS.bind hS.get fun m => hS.guard (hS.failReporting _ _) (hS.guard (hS.fail _) ?_)
    refine hS.bind (hmono (hT.allocateLocals hlocals)) fun locals => hS.bind ?_ fun _ => ?_
    · exact fun m hm => hT.push m _ hm
    · refine hmono (hT.passArgs fun a ha => hlocals _ ?_)
      have hzip := mem_of_mem_drop (of_mem_zip ha).2
      exact (of_mem_zip hzip).2
  exact (hkeeps m h).2 hm

theorem resume (f : Frame) : Keeps R (resume f) := by
  have hpop : Keeps R (modify fun m : Machine => { m with stack := m.stack.drop 1 }) := hR.pop
  unfold Machine.resume
  refine hR.bind hpop fun _ => ?_
  grind

@[grind .] theorem ret : Keeps R ret := by
  unfold Machine.ret
  refine hR.bind hR.frame fun f => hR.bind (hR.handOver f) fun _ => ?_
  exact hR.bind (hR.freeLocals f.locals) fun _ => hR.resume f

/-- A call does to a machine what the called builtin or intrinsic does, or it pushes a frame. -/
theorem call_final
    (hother : ∀ args dest m1, Machine.evalCall c m = .ok (args, dest) m1 →
      m1.program.find? c.callee = none → Along P R m1 ((Machine.callOther c args dest).final m1)) :
    Along P R m ((call c).final m) := by
  have hA := hR.along
  unfold call
  refine hA.bind_final (hA.evalCall c m) fun found m1 hfound => ?_
  obtain ⟨args, dest⟩ := found
  unfold callWith
  split
  · exact hA.refl m1
  · refine hA.bind_final (hA.refl m1) fun _ _ hget => ?_
    cases hget
    split
    · rename_i function hfunction
      exact hA.bind_final (hR.pushFrame args _ _ ⟨_, hfunction⟩) fun _ m' _ => hA.refl m'
    · rename_i hnone
      exact hA.bind_final (hother args dest m1 hfound hnone) fun _ m' _ => hA.afterCall c m'

theorem call {c : Call} (hc : ∀ t ∈ c.types, t.Fits P)
    (hsymbolic : Builtin.ofName? c.callee = some .makeSymbolic → Symbolizes R)
    (hassume : ∀ name, c.callee = .str name → Intrinsic.ofName? name = some .assume → Assumes R) :
    Keeps (Along P R) (call c) := by
  intro m hm
  refine hR.call_final (fun args dest m1 hfound _ => ?_) hm
  obtain ⟨hargs, hdest⟩ := hR.evalCall_fits hc hm hfound
  exact hR.along.callOther hc hargs hdest (fun h => symbolizes_along (hsymbolic h))
    (fun name hname h => assumes_along (hassume name hname h)) m1

/-! ## Steps -/

/-- A step of a frame does to a machine what the call does that it makes, if it makes one. -/
theorem stepFrame_final {f : Frame} (hf : f.function.Fits P)
    (hcall : ∀ c, nextCall? f = some c → Along P R m ((Machine.call c).final m)) :
    Along P R m ((stepFrame f).final m) := by
  rcases hR.stepFrame_cases hf with ⟨c, hc, hstep⟩ | ⟨-, hquiet | hstep⟩
  · rw [hstep]
    exact hcall c hc
  · exact hquiet m
  · rw [hstep]
    exact hR.along.ret m

theorem stepFrame {f : Frame} (hf : f.function.Fits P)
    (hsymbolic : ∀ c, nextCall? f = some c →
      Builtin.ofName? c.callee = some .makeSymbolic → Symbolizes R)
    (hassume : ∀ c name, nextCall? f = some c → c.callee = .str name →
      Intrinsic.ofName? name = some .assume → Assumes R) : Keeps (Along P R) (stepFrame f) := by
  intro m
  refine hR.stepFrame_final hf fun c hc => ?_
  exact hR.call (types_of_nextCall? hf hc) (hsymbolic c hc) (fun name => hassume c name hc) m

end Closed

/-! ## Steps of any program -/

section Any

variable {R : Machine → Machine → Prop}

theorem along_false {m : Machine} : Along False R m m' ↔ R m m' := by
  have hfits (m : Machine) : m.Fits False :=
    ⟨fun _ _ t _ => t.fits_of_not id, fun _ _ t _ => t.fits_of_not id⟩
  exact ⟨fun h => (h (hfits m)).2, fun h _ => ⟨hfits m', h⟩⟩

variable (hR : Closed False R)
include hR

theorem Closed.pushAny {m : Machine} (args : List Arg) (returnPtr : Option Pointer)
    (returnTarget : Option Int) (h : ∃ name, m.program.find? name = some function) :
    R m ((Machine.pushFrame function args returnPtr returnTarget).final m) :=
  along_false.1 (hR.pushFrame args returnPtr returnTarget h)

theorem Closed.stepAny (f : Frame)
    (hsymbolic : ∀ c, nextCall? f = some c →
      Builtin.ofName? c.callee = some .makeSymbolic → Symbolizes R)
    (hassume : ∀ c name, nextCall? f = some c → c.callee = .str name →
      Intrinsic.ofName? name = some .assume → Assumes R) : Keeps R (Machine.stepFrame f) := fun m =>
  along_false.1 (hR.stepFrame (fun t _ => t.fits_of_not id) hsymbolic hassume m)

end Any

end Machine
end SymExec
import SymExec.Cast
import SymExec.Machine.Intrinsic
import SymExec.Text.Utf8

/-!
# Steps of the machine

`Machine.step` carries out one statement or terminator of the innermost frame. The machine then goes
on, forks at a branch that depends on symbolic bytes, or is done.
-/
namespace SymExec

inductive Continuation where
  | goto (block : Int)
  | fail (error : EvalError)

/-- One branch of a fork: the condition under which it is taken, and how it goes on. -/
structure Branch where
  condition : Condition
  next : Continuation
  /-- A value that is written to a place when the branch is taken. -/
  write : Option (Place × Scalar × Ty) := none

inductive StepResult where
  | advance
  | fork (branches : List Branch)
  | done

namespace Machine

/-! ## Statements -/

/-- Casts a primitive value. The names of both types are written down first. -/
def castValue (v : Scalar) (source dest : Ty) : Run Machine Scalar :=
  match source.nameFault?.or dest.nameFault? with
  | some fault => throw fault.failure
  | none => onStore (Cast.cast v source dest)

/-- Casts between pointers with and without a length, and between primitive values. -/
def castTo (dest : PlaceRef) (source : Arg) : Run Machine Unit := do
  if ← dest.ty.isFat then
    if ← source.ty.isFat then writeValue dest.ptr source.value dest.ty true
    else
      match ← source.ty.pointee with
      | .array _ length =>
        let data ← readArg source
        writePair dest.ptr data (.ofInt length) dest.ty true
      | _ => Run.fail (.cast source.ty dest.ty)
  else if ← source.ty.isFat then
    let data ← match source.value with
      | .pair data _ => pure data
      | .inMemory p => do pure (← readPair p source.ty).1
      | .one _ => throw .crash
    let v ← castValue data (.rawPtr .u8 false) dest.ty
    writeScalar dest.ptr v dest.ty true
  else
    let v ← readArg source
    let v ← castValue v source.ty dest.ty
    writeScalar dest.ptr v dest.ty true

/-- The kind of a shift amount; other operators take both operands at one kind. -/
def shiftKind (op : BinOp) (rhs : Arg) : Except EvalError (Option Kind) :=
  if op.isShift then do return some (← rhs.ty.kind) else .ok none

/-- Carries out an assignment. The place is found before the value. -/
def assign (place : Place) (rvalue : Rvalue) : Run Machine Unit := do
  let dest ← evalPlace place
  match rvalue with
  | .use operand =>
    let arg ← evalOperand operand
    writeValue dest.ptr arg.value dest.ty true
  | .binary op lhs rhs =>
    let lhs ← evalOperand lhs
    let rhs ← evalOperand rhs
    let rhsKind ← shiftKind op rhs
    let a ← readArg lhs
    let b ← readArg rhs
    let kind ← lhs.ty.kind
    let v ← onStore (Operator.binary op a b kind rhsKind)
    writeScalar dest.ptr v dest.ty true
  | .checked op lhs rhs =>
    let lhs ← evalOperand lhs
    let rhs ← evalOperand rhs
    let rhsKind ← shiftKind op rhs
    let a ← readArg lhs
    let b ← readArg rhs
    let kind ← lhs.ty.kind
    let (v, overflowed) ← onStore (Operator.overflowing op a b kind rhsKind)
    writePair dest.ptr v overflowed dest.ty true
  | .unary op operand =>
    let arg ← evalOperand operand
    let v ← readArg arg
    let kind ← arg.ty.kind
    let v ← onStore (Operator.unary op v kind)
    writeScalar dest.ptr v dest.ty true
  | .cast operand _ =>
    let arg ← evalOperand operand
    castTo dest arg
  | .ref place _ =>
    let ref ← evalPlace place
    if ← ref.ty.isSized then writeScalar dest.ptr (.ptr ref.ptr) dest.ty true
    else
      match ref.length with
      | some length => writePair dest.ptr (.ptr ref.ptr) length dest.ty true
      | none => throw .crash
  | .len place =>
    let ref ← evalPlace place
    match ref.ty, ref.length with
    | .array _ length, _ => writeScalar dest.ptr (.ofInt length) dest.ty true
    | .slice _, some length => writeScalar dest.ptr length dest.ty true
    | .str, some length => writeScalar dest.ptr length dest.ty true
    | ty, _ => Run.fail (.lengthOf ty)

/-! ## Branches -/

/-- The branches that some input of the path takes. -/
def feasibleOnly (s : Store) (branches : List Branch) : List Branch :=
  branches.filter fun b => s.feasible [b.condition]

/-- Goes to the target of a value of a kind, else to `otherwise`. -/
def switchOn (v : Scalar) (kind : Kind) (values targets : List Int) (otherwise : Int) :
    Run Machine StepResult := do
  match v with
  | .cells list =>
    let s := (← get).memory.store
    let equals ← values.mapM fun n => (s.equals (.cells list) n kind : Except Failure Condition)
    let taken := (equals.zip targets).map fun (c, target) =>
      ({ condition := c, next := .goto target } : Branch)
    let rest : Branch := { condition := .all (equals.map .not), next := .goto otherwise }
    return .fork (feasibleOnly s (taken ++ [rest]))
  | v =>
    let word := (← v.toPattern).setWidth kind.bits
    let found := (values.zip targets).find? fun (n, _) => BitVec.ofInt kind.bits n == word
    goto ((found.map Prod.snd).getD otherwise)
    return .advance

def switch (discr : Operand) (values targets : List Int) (otherwise : Int) :
    Run Machine StepResult := do
  let arg ← evalOperand discr
  let v ← readArg arg
  let kind ← arg.ty.kind
  switchOn v kind values targets otherwise

def assertOn (v : Scalar) (expected : Bool) (target : Int) (message : Json) :
    Run Machine StepResult := do
  match v with
  | .cells list =>
    let s := (← get).memory.store
    let holds ← s.truth (.cells list)
    let passing := if expected then holds else .not holds
    return .fork (feasibleOnly s [
      { condition := passing, next := .goto target },
      { condition := .not passing, next := .fail (.panic message) }])
  | v =>
    if (← v.toBool) != expected then Run.fail (.panic message)
    goto target
    return .advance

def assert (cond : Operand) (expected : Bool) (target : Int) (message : Json) :
    Run Machine StepResult := do
  let arg ← evalOperand cond
  assertOn (← readArg arg) expected target message

/-! ## Calls -/

/-- The message of a panic: the text that the first argument refers to. -/
def panicMessage (args : List Arg) : Run Machine Json := do
  let default := Json.str "explicit panic"
  match args with
  | ⟨.pair (.ptr p) (.bits n), _⟩ :: _ =>
    let cells ← (← get).memory.readBytes p (n.setWidth 64).toNat 1
    let bytes := cells.filterMap Cell.known?
    if bytes.length = cells.length then return .str (Text.ofUtf8 (bytes.map BitVec.toNat))
    return default
  | _ => return default

def performBuiltin (b : Builtin) (args : List Arg) (dest : Option PlaceRef) (typeArgs : List Ty) :
    Run Machine Unit := do
  match b, args with
  | .panic, args => Run.fail (.panic (← panicMessage args))
  | .alloc, [size, align] =>
    let size ← readArg size
    let align ← readArg align
    let size ← size.toU64
    let align ← align.toU64
    let p ← onMemory (Memory.allocate size align .heap)
    match dest with
    | some d => writeScalar d.ptr (.ptr p) d.ty true
    | none => return ()
  | .dealloc, [p, size] =>
    let p ← (← readArg p).toPtr
    let size ← (← readArg size).toU64
    let a ← (← get).memory.get p.alloc
    if a.size ≠ size then Run.fail (.freeSize a.size size)
    onMemory (Memory.deallocate p (some .heap))
  | .makeSymbolic, [target] =>
    let ty ← match typeArgs with
      | ty :: _ => pure ty
      | [] => target.ty.pointee
    let p ← (← readArg target).toPtr
    let size ← ty.size
    onMemory (Memory.makeSymbolic p size)
  | _, _ => throw .crash

def callBuiltin (b : Builtin) (args : List Arg) (dest : Option PlaceRef) (typeArgs : List Ty) :
    Run Machine Unit := do
  match b.arity? with
  | some expected =>
    if args.length ≠ expected then Run.fail (.arity (.str b.name) expected args.length)
  | none => pure ()
  performBuiltin b args dest typeArgs

/-- Finds the arguments of a call and the place of its result. -/
def evalCall (c : Call) : Run Machine (List Arg × Option PlaceRef) := do
  let args ← c.args.mapM evalOperand
  let dest ← c.dest.mapM evalPlace
  return (args, dest)

/-- Calls a builtin or an intrinsic. -/
def callOther (c : Call) (args : List Arg) (dest : Option PlaceRef) : Run Machine Unit :=
  match Builtin.ofName? c.callee, c.callee with
  | some b, _ => callBuiltin b args dest c.typeArgs
  | none, .str callee =>
    match Intrinsic.ofName? callee with
    | some intrinsic => callIntrinsic ⟨intrinsic, callee, args, dest, c.typeArgs⟩
    | none => Run.fail (.unknownIntrinsic callee)
  | none, _ => throw .crash

/-- Goes on after a call of a builtin or an intrinsic. -/
def afterCall (c : Call) : Run Machine StepResult := do
  match c.target with
  | some target => goto target
  | none => Run.fail (.callReturned c.callee)
  return .advance

/-- Carries out a call whose arguments are found. -/
def callWith (c : Call) (args : List Arg) (dest : Option PlaceRef) : Run Machine StepResult := do
  if !c.callee.isName then throw .crash
  match (← get).program.find? c.callee with
  | some function =>
    pushFrame function args (dest.map PlaceRef.ptr) c.target
    return .advance
  | none =>
    callOther c args dest
    afterCall c

def call (c : Call) : Run Machine StepResult := do
  let found ← evalCall c
  callWith c found.1 found.2

def handOver (f : Frame) : Run Machine Unit := do
  match f.returnPtr, f.locals with
  | some p, result :: _ =>
    let size ← f.function.returnTy.size
    if 0 < size then onMemory (Memory.copyBytes result p size 1)
  | _, _ => pure ()

def freeLocals (locals : List Pointer) : Run Machine Unit := do
  for p in locals do
    onMemory (Memory.deallocate p (some .stack))

/-- Goes on in the frame below, if there is one. -/
def resume (f : Frame) : Run Machine StepResult := do
  modify fun m => { m with stack := m.stack.drop 1 }
  if (← get).stack.isEmpty then return .done
  match f.returnTarget with
  | some target => goto target
  | none => Run.fail (.functionReturned f.function.name)
  return .advance

/-- Returns from a function. -/
def ret : Run Machine StepResult := do
  let f ← frame
  handOver f
  freeLocals f.locals
  resume f

def terminate : Terminator → Run Machine StepResult
  | .goto target => do
    goto target
    return .advance
  | .switch discr values targets otherwise => switch discr values targets otherwise
  | .assert cond expected target message => assert cond expected target message
  | .call c => call c
  | .ret => ret
  | .abort => Run.fail (.panic (.str "the program aborted execution"))
  | .unreachable => Run.fail .unreachableCode

/-! ## Steps -/

def countStep : Run Machine Unit := do
  modify fun m => { m with steps := m.steps + 1 }
  let m ← get
  let most := m.limits.steps
  if most < m.steps then Run.failReporting [most] (.stepLimit most)

def blockOf (f : Frame) : Except Failure Block :=
  if f.function.blocks.length ≤ f.block then
    .error (.error (.noBlock f.function.name f.block))
  else
    match Section.item? f.function.blocks f.block with
    | some b => .ok b
    | none => .error .crash

/-- Carries out a statement and goes on to the next one. -/
def stepStatement (s : Statement) : Run Machine StepResult := do
  match s with
  | .assign place rvalue => assign place rvalue
  | .nop => pure ()
  changeFrame fun f => { f with stmt := f.stmt + 1 }
  return .advance

def stepFrame (f : Frame) : Run Machine StepResult := do
  let b ← blockOf f
  match b.statements[f.stmt]? with
  | some s => stepStatement s
  | none => terminate b.terminator

/-- One step, up to the message of an error. -/
def attempt : Run Machine StepResult := do
  let m ← get
  match m.pending with
  | some e =>
    set { m with pending := none }
    Run.fail e
  | none =>
    match m.stack with
    | [] => return .done
    | f :: _ =>
      countStep
      stepFrame f

def step : Run Machine StepResult := Run.written attempt

def follow (b : Branch) : Run Machine Unit := do
  onStore (Store.require b.condition)
  if let some (place, v, ty) := b.write then
    let ref ← evalPlace place
    writeScalar ref.ptr v ty true
  match b.next with
  | .goto block => goto block
  | .fail e => modify fun m => { m with pending := some e }

end Machine
end SymExec

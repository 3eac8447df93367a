import SymExec.Config
import SymExec.Memory
import SymExec.Program
import SymExec.Text.Utf8

/-!
# The machine

A machine is one candidate path of a program: a call stack and the memory with its constraints.
Every local has an allocation of its own, so references to locals are ordinary pointers.
-/
namespace SymExec

structure Frame where
  function : Function
  locals : List Pointer
  block : Int := 0
  stmt : Nat := 0
  /-- Where the caller wants the result. -/
  returnPtr : Option Pointer := none
  /-- The block of the caller to go on with. -/
  returnTarget : Option Int := none

def Frame.location (f : Frame) : String :=
  "inside call to " ++ f.function.name.display ++ s!" at bb{f.block}[{f.stmt}]"

/-- One candidate path of a program. -/
structure Machine where
  program : Program
  limits : Limits
  memory : Memory
  /-- The frames, the innermost one first. -/
  stack : List Frame := []
  steps : Nat := 0
  /-- An error that the next step reports. -/
  pending : Option EvalError := none

structure Arg where
  value : Value
  ty : Ty

/-- An evaluated place: its address, its type, and its length if it is unsized. -/
structure PlaceRef where
  ptr : Pointer
  ty : Ty
  length : Option Scalar := none

namespace Machine

/-- The locations of the frames, the innermost one first. -/
def trace (m : Machine) : List String := m.stack.map Frame.location

def onMemory {α : Type} (act : Run Memory α) : Run Machine α := fun m =>
  match act m.memory with
  | .ok a memory => .ok a { m with memory := memory }
  | .error e memory => .error e { m with memory := memory }

def onStore {α : Type} (act : Run Store α) : Run Machine α := onMemory (Memory.onStore act)

def frame : Run Machine Frame := do
  match (← get).stack with
  | f :: _ => return f
  | [] => throw .crash

def changeFrame (f : Frame → Frame) : Run Machine Unit :=
  modify fun m => match m.stack with
    | top :: rest => { m with stack := f top :: rest }
    | [] => m

def goto (block : Int) : Run Machine Unit :=
  changeFrame fun f => { f with block := block, stmt := 0 }

/-! ## Typed access to memory -/

def readScalar (p : Pointer) (ty : Ty) : Run Machine Scalar := do
  let size ← ty.size
  let kind ← ty.kind
  let align ← ty.align
  (← get).memory.readScalar p size kind align

/-- Writes a primitive value of a type, at an address that is `aligned` for it or at any. -/
def writeScalar (p : Pointer) (v : Scalar) (ty : Ty) (aligned : Bool) : Run Machine Unit := do
  let size ← ty.size
  let align ← if aligned then ty.align else .ok 1
  onMemory (Memory.writeScalar p v size align)

def pairFields (ty : Ty) : Except EvalError ((Ty × Int) × (Ty × Int)) :=
  match ty.fields? with
  | some [a, b] => do
    match ← Ty.offsets [a, b] with
    | [x, y] => return ((a, x), (b, y))
    | _ => throw (.notPair ty)
  | _ => .error (.notPair ty)

/-- Reads the two halves of a pointer with length, or the two fields of a pair. -/
def readPair (p : Pointer) (ty : Ty) : Run Machine (Scalar × Scalar) := do
  if ← ty.isFat then
    let data ← (← get).memory.readScalar p pointerSize .ptr pointerSize
    let length ← (← get).memory.readScalar (← p.offsetBy pointerSize) pointerSize .u64 pointerSize
    return (data, length)
  else
    let ((a, x), (b, y)) ← pairFields ty
    let first ← readScalar (← p.offsetBy x) a
    let second ← readScalar (← p.offsetBy y) b
    return (first, second)

def writePair (p : Pointer) (first second : Scalar) (ty : Ty) (aligned : Bool) :
    Run Machine Unit := do
  if ← ty.isFat then
    let align := if aligned then pointerSize else 1
    onMemory (Memory.writeScalar p first pointerSize align)
    let next ← p.offsetBy pointerSize
    onMemory (Memory.writeScalar next second pointerSize align)
  else
    let ((a, x), (b, y)) ← pairFields ty
    writeScalar (← p.offsetBy x) first a aligned
    writeScalar (← p.offsetBy y) second b aligned

/-- Writes a value of a type. A value without size is not written at all. -/
def writeValue (p : Pointer) (v : Value) (ty : Ty) (aligned : Bool) : Run Machine Unit := do
  let size ← ty.size
  match v with
  | .inMemory source =>
    let align ← if aligned then ty.align else .ok 1
    onMemory (Memory.copyBytes source p size align)
  | .pair first second => if size ≠ 0 then writePair p first second ty aligned
  | .one v => if size ≠ 0 then writeScalar p v ty aligned

def readArg (arg : Arg) : Run Machine Scalar :=
  match arg.value with
  | .one v => return v
  | .inMemory p => readScalar p arg.ty
  | .pair _ _ => Run.fail (.pairOperand arg.ty)

/-! ## Places -/

def localAt (f : Frame) (index : Int) : Except EvalError (Pointer × Ty) :=
  match Section.item? f.locals index, Section.item? f.function.locals index with
  | some p, some ty =>
    if 0 ≤ index then .ok (p, ty) else .error (.noLocal f.function.name index)
  | _, _ => .error (.noLocal f.function.name index)

def knownLength : Option Scalar → Except EvalError Nat
  | none => .error .lengthMissing
  | some (.cells _) => .error .symbolicSliceLength
  | some v => v.toU64

def element (ref : PlaceRef) (index : Int) : Except EvalError PlaceRef := do
  let (elem, length) ← match ref.ty with
    | .array elem length => pure (elem, length)
    | .slice elem => do pure (elem, (← knownLength ref.length : Int))
    | ty => throw (.indexInto ty)
  if length ≤ index then throw (.indexOutside length index)
  return ⟨← ref.ptr.offsetBy (index * (← elem.size)), elem, none⟩

/-- The field of an aggregate; a negative index counts from the last field. -/
def fieldOf (ref : PlaceRef) (index : Int) : Except Failure PlaceRef :=
  match ref.ty.fields? with
  | none => .error (.error (.fieldAccess ref.ty))
  | some fields => do
    if fields.length ≤ index then throw (.error (.noField ref.ty index))
    match Section.item? (← Ty.offsets fields) index, Section.item? fields index with
    | some offset, some ty => return ⟨← ref.ptr.offsetBy offset, ty, ref.length⟩
    | _, _ => throw .crash

/-- What a pointer held at a place points to. -/
def deref (ref : PlaceRef) : Run Machine PlaceRef := do
  let pointee ← ref.ty.pointee
  if ← ref.ty.isFat then
    let (data, length) ← readPair ref.ptr ref.ty
    return ⟨← data.toPtr, pointee, some length⟩
  else
    let data ← readScalar ref.ptr ref.ty
    return ⟨← data.toPtr, pointee, none⟩

def project (f : Frame) (ref : PlaceRef) : Projection → Run Machine PlaceRef
  | .deref => deref ref
  | .field i => fieldOf ref i
  | .constIndex i => element ref i
  | .index base => do
    let (p, _) ← localAt f base
    match ← readScalar p .usize with
    | .cells _ => Run.fail .symbolicIndex
    | v => element ref (← v.toU64)

def evalPlace (place : Place) : Run Machine PlaceRef := do
  let f ← frame
  let (p, ty) ← localAt f place.base
  place.projections.foldlM (project f) ⟨p, ty, none⟩

/-! ## Operands -/

def evalConstant (value : Json) (ty : Ty) : Run Machine Value := do
  match ty.pointee?, value with
  | some .str, .str s =>
    let bytes ← (Text.encode s).mapError Failure.numeral
    let data := bytes.map fun b => BitVec.ofNat 8 b.toNat
    let p ← onMemory (Memory.allocateStatic data)
    return .pair (.ptr p) (.ofNat data.length)
  | _, _ =>
    match ty, value with
    | .bool, value => return .one (.ofBool value.truthy)
    | .char, .str s =>
      match s.toList with
      | [c] => return .one (.ofNat (Text.point c))
      | _ => throw .crash
    | .char, value => return .one (.ofInt (← value.toInt))
    | .int w signed _, value => return .one (.ofBits (← value.toInt) (.int w signed))
    | .f32, value => return .one (.ofDouble (← value.toDouble) .f32)
    | .f64, value => return .one (.ofDouble (← value.toDouble) .f64)
    | .rawPtr _ _, .int n => return .one (.ofInt n)
    | .rawPtr _ _, .bool b => return .one (.ofBool b)
    | ty, _ =>
      if (← ty.layout).size = some 0 then return .one .undef
      Run.fail (.constantType ty)

def evalOperand : Operand → Run Machine Arg
  | .constant value ty => do return ⟨← evalConstant value ty, ty⟩
  | .copy place => do
    let ref ← evalPlace place
    if ← ref.ty.isFat then
      let (data, length) ← readPair ref.ptr ref.ty
      return ⟨.pair data length, ref.ty⟩
    else if ← ref.ty.isPrimitive then return ⟨.one (← readScalar ref.ptr ref.ty), ref.ty⟩
    else return ⟨.inMemory ref.ptr, ref.ty⟩

/-! ## Calls -/

/-- Allocates the locals of a frame. -/
def allocateLocals (types : List Ty) : Run Machine (List Pointer) :=
  types.mapM fun ty => do
    let size ← ty.size
    let align ← ty.align
    onMemory (Memory.allocate size align .stack)

/-- Writes the arguments of a call into locals. -/
def passArgs (args : List (Arg × Pointer × Ty)) : Run Machine Unit := do
  for (arg, p, ty) in args do
    writeValue p arg.value ty true

/-- Calls a function: allocates its locals and passes the arguments. -/
def pushFrame (function : Function) (args : List Arg) (returnPtr : Option Pointer)
    (returnTarget : Option Int) : Run Machine Unit := do
  let m ← get
  let most := m.limits.frames
  if most ≤ m.stack.length then Run.failReporting [most] (.stackLimit most)
  if (args.length : Int) ≠ function.argCount then
    Run.fail (.arity function.name function.argCount args.length)
  let locals ← allocateLocals function.locals
  modify fun m =>
    { m with stack := ⟨function, locals, 0, 0, returnPtr, returnTarget⟩ :: m.stack }
  passArgs (args.zip ((locals.zip function.locals).drop 1))

end Machine
end SymExec

import SymExec.Machine
import SymExec.Machine.FloatMath
import SymExec.Operator
import SymExec.Ty.Identity

/-!
# Intrinsics

What each intrinsic does. The machine has one thread: atomic operations are plain reads and writes.
-/
namespace SymExec.Machine

structure IntrinsicCall where
  intrinsic : Intrinsic
  /-- The name it was called by. -/
  callee : String
  args : List Arg
  dest : Option PlaceRef
  typeArgs : List Ty

namespace IntrinsicCall

/-- An argument. The number of arguments is checked before any is used. -/
def arg (c : IntrinsicCall) (index : Nat) : Except Failure Arg :=
  match c.args[index]? with
  | some a => .ok a
  | none => .error .crash

def prim (c : IntrinsicCall) (index : Nat) : Run Machine Scalar := do readArg (← c.arg index)

def pointer (c : IntrinsicCall) (index : Nat) : Run Machine Pointer := do
  (← c.prim index).toPtr

/-- An argument that counts something and has to be known. -/
def count (c : IntrinsicCall) (index : Nat) : Run Machine Nat := do
  match ← c.prim index with
  | .cells _ => Run.fail (.symbolicCount c.callee)
  | v => v.toU64

def result (c : IntrinsicCall) (v : Scalar) : Run Machine Unit :=
  match c.dest with
  | some d => writeScalar d.ptr v d.ty true
  | none => return ()

/-- Writes a number of 64 bits as the result. -/
def resultUsize (c : IntrinsicCall) (n : Int) : Run Machine Unit :=
  c.result (.ofNat (BitVec.ofInt 64 n).toNat)

def resultPair (c : IntrinsicCall) (first second : Scalar) : Run Machine Unit :=
  match c.dest with
  | some d => writePair d.ptr first second d.ty true
  | none => return ()

def typeArg (c : IntrinsicCall) (index : Nat) : Except EvalError Ty :=
  match c.typeArgs[index]? with
  | some ty => .ok ty
  | none => .error (.typeArgumentMissing c.callee index)

/-- The type of what the first argument points to, unless a type argument says otherwise. -/
def elemType (c : IntrinsicCall) : Except Failure Ty :=
  match c.typeArgs with
  | ty :: _ => .ok ty
  | [] => do return ← (← c.arg 0).ty.pointee

def kind (c : IntrinsicCall) : Except Failure Kind := do return ← (← c.arg 0).ty.kind

end IntrinsicCall

/-! ## Arithmetic -/

def overflowArith (c : IntrinsicCall) (op : OverflowOp) : Run Machine (Scalar × Scalar) := do
  let kind ← c.kind
  let lhs ← c.prim 0
  let rhs ← c.prim 1
  onStore (Operator.overflowing op.op lhs rhs kind none)

def arith (c : IntrinsicCall) (op : BinOp) : Run Machine Unit := do
  let kind ← c.kind
  let lhs ← c.prim 0
  let rhs ← c.prim 1
  c.result (← onStore (Operator.binary op lhs rhs kind none))

/-- Counts bits. The variants for nonzero operands refuse a known zero. -/
def countBits (c : IntrinsicCall) (way : BitCount) (nonzero : Bool) : Run Machine Unit := do
  let kind ← c.kind
  match ← c.prim 0 with
  | .undef => c.result .undef
  | .cells list => c.result (← onStore (Store.countBits way (.cells list) kind))
  | v =>
    let word := (← v.toPattern).setWidth kind.bits
    if nonzero && word == 0 then Run.fail (.zeroOperand c.callee)
    c.result (.ofBits (Operator.bitCount way word) kind)

/-! ## Memory -/

/-- Stores a new value and gives the old one. -/
def exchange (c : IntrinsicCall) : Run Machine Unit := do
  let ty ← c.elemType
  let p ← c.pointer 0
  let old ← readScalar p ty
  writeScalar p (← c.prim 1) ty true
  c.result old

/-- Stores the new value if the old one is as expected. If that is not known, the stored value is
one or the other, as the comparison says. -/
def compareExchange (c : IntrinsicCall) : Run Machine Unit := do
  let ty ← c.elemType
  let kind ← ty.kind
  let p ← c.pointer 0
  let expected ← c.prim 1
  let new ← c.prim 2
  let old ← readScalar p ty
  let success ← onStore (Operator.binary .eq old expected kind none)
  match success with
  | .cells _ =>
    let stored ← onStore (Store.select success new old kind)
    writeScalar p stored ty true
  | .bits _ => if ← success.toBool then writeScalar p new ty true
  | _ => pure ()
  c.resultPair old success

/-- Stores the result of an operation with the old value, and gives the old one. -/
def fetch (c : IntrinsicCall) (op : FetchOp) : Run Machine Unit := do
  let ty ← c.elemType
  let kind ← ty.kind
  let p ← c.pointer 0
  let old ← readScalar p ty
  let new ← onStore (Operator.binary op.op old (← c.prim 1) kind none)
  writeScalar p new ty true
  c.result old

def copy (c : IntrinsicCall) : Run Machine Unit := do
  let ty ← c.elemType
  let count ← c.count 2
  let source ← c.pointer 0
  let dest ← c.pointer 1
  let size ← ty.size
  let align ← ty.align
  onMemory (Memory.copyBytes source dest (size * count) align)

/-- Fills a number of elements with one byte. -/
def writeBytes (c : IntrinsicCall) : Run Machine Unit := do
  let ty ← c.elemType
  let dest ← c.pointer 0
  let byte ← c.prim 1
  let count ← c.count 2
  let cell ← match byte with
    | .cells (cell :: _) => pure cell
    | .cells [] => throw .crash
    | v => do pure (.known ((← v.toPattern).setWidth 8))
  let size ← ty.size
  let align ← ty.align
  onMemory (Memory.writeRepeat dest cell (size * count) align)

def transmute (c : IntrinsicCall) : Run Machine Unit := do
  match c.dest with
  | none => return ()
  | some d =>
    let source ← c.arg 0
    let size ← d.ty.size
    let sourceSize ← source.ty.size
    if sourceSize ≠ size then
      Run.fail (.transmuteSizes source.ty sourceSize d.ty size)
    onMemory (Memory.markPacked d.ptr size)
    writeValue d.ptr source.value source.ty false

/-! ## Pointers -/

/-- Moves a pointer by a number of elements that is not known, or one whose offset is not. -/
def symbolicOffset (base count : Scalar) (size : Int) : Run Machine Scalar := do
  match base with
  | .ptr p =>
    let scaled ← onStore (Store.binary .mul (.ofInt size) count .i64 none)
    let offset ← onStore (Store.binary .add p.offset scaled .i64 none)
    return .ptr (.atOffset p.alloc offset)
  | _ => Run.fail .symbolicAddress

/-- Moves a known pointer. Unless it may wrap, it has to stay in its allocation or right behind. -/
def knownOffset (base : Scalar) (delta : Int) (wrapping : Bool) : Run Machine Scalar := do
  match base with
  | .ptr p =>
    let moved ← p.offsetBy delta
    if let .known id offset := p then
      if !wrapping then
        let a ← (← get).memory.get id
        if offset + delta < 0 || (a.size : Int) < offset + delta then Run.fail .offsetOutside
    return .ptr moved
  | base =>
    if delta ≠ 0 && !wrapping then Run.fail .integerOffset
    return .ofNat (BitVec.ofInt 64 ((← base.toU64) + delta)).toNat

def offset (c : IntrinsicCall) (wrapping : Bool) : Run Machine Unit := do
  let size ← (← c.elemType).size
  let base ← c.prim 0
  let count ← c.prim 1
  match base, count with
  | .undef, _ | _, .undef => Run.fail .undefinedRead
  | base, .cells list => c.result (← symbolicOffset base (.cells list) size)
  | .ptr (.symbolic id o), count =>
    c.result (← symbolicOffset (.ptr (.symbolic id o)) count size)
  | base, count =>
    let delta := (← count.toI64) * size
    c.result (← knownOffset base delta wrapping)

/-! ## Reflection -/

/-- The size and alignment of the value that the argument points to. -/
def valueExtent (c : IntrinsicCall) : Run Machine (Option Int × Nat) := do
  let arg ← c.arg 0
  let ty ← match c.typeArgs with
    | ty :: _ => pure ty
    | [] => arg.ty.pointee
  if ← ty.isSized then ty.extent none
  else
    match arg.value with
    | .pair _ (.cells _) => Run.fail (.symbolicLength c.callee)
    | .pair _ length => ty.extent (some (← length.toU64 : Int))
    | _ => Run.fail (.valueWithoutLength c.callee)

/-- Gives the name of a type as text that is never freed. -/
def typeName (c : IntrinsicCall) : Run Machine Unit := do
  let name := (← (← c.typeArg 0).nameBytes).map fun b => BitVec.ofNat 8 b.toNat
  let p ← onMemory (Memory.allocateStatic name)
  match c.dest with
  | some d => writePair d.ptr (.ptr p) (.ofNat name.length) .strRef true
  | none => return ()

/-- Applies a function on numbers; an undefined argument gives an undefined result. -/
def floatMath (c : IntrinsicCall) (fn : FloatFn) (single : Bool) : Run Machine Unit := do
  let kind : Kind := if single then .f32 else .f64
  let args ← c.args.mapM readArg
  if args.any Scalar.isSymbolic then Run.fail (.symbolicOperand c.intrinsic.name)
  if args.any Scalar.isUndef then c.result .undef
  else c.result (← fn.apply kind args)

/-! ## All intrinsics -/

def perform (c : IntrinsicCall) : Run Machine Unit := do
  match c.intrinsic with
  | .withOverflow op =>
    let (value, overflowed) ← overflowArith c op
    c.resultPair value overflowed
  | .overflowing op => c.result (← overflowArith c op).1
  | .exactDiv => arith c .div
  | .fastAdd => arith c .add
  | .fastSub => arith c .sub
  | .fastMul => arith c .mul
  | .fastDiv => arith c .div
  | .fastRem => arith c .rem
  | .countOnes => countBits c .ones false
  | .leadingZeros nonzero => countBits c .leadingZeros nonzero
  | .trailingZeros nonzero => countBits c .trailingZeros nonzero
  | .swapBytes =>
    let kind ← c.kind
    c.result (← Operator.swapBytes (← c.prim 0) kind)
  | .load _ =>
    let ty ← c.elemType
    c.result (← readScalar (← c.pointer 0) ty)
  | .store _ =>
    let ty ← c.elemType
    let p ← c.pointer 0
    writeScalar p (← c.prim 1) ty true
  | .exchange => exchange c
  | .compareExchange => compareExchange c
  | .fetch op => fetch c op
  | .fence => return ()
  | .offset wrapping => offset c wrapping
  | .alignOffset => c.resultUsize (-1)
  | .assume =>
    match ← c.prim 0 with
    | .cells list =>
      onStore do
        let s ← get
        Store.require (← s.truth (.cells list))
    | v => if !(← v.toBool) then Run.fail .assumptionFailed
  | .copy _ => copy c
  | .writeBytes => writeBytes c
  | .init =>
    if let some d := c.dest then
      let size ← d.ty.size
      onMemory (Memory.writeRepeat d.ptr (.known 0) size 1)
  | .uninit =>
    if let some d := c.dest then
      let size ← d.ty.size
      onMemory (Memory.markDefinedness d.ptr size false)
  | .moveValInit =>
    let p ← c.pointer 0
    let source ← c.arg 1
    writeValue p source.value source.ty true
  | .transmute => transmute c
  | .sizeOf => c.resultUsize (← (← c.typeArg 0).size)
  | .minAlignOf => c.resultUsize (← (← c.typeArg 0).align)
  | .prefAlignOf => c.resultUsize (← (← c.typeArg 0).align)
  | .sizeOfVal => c.resultUsize ((← valueExtent c).1.getD 0)
  | .minAlignOfVal => c.resultUsize (← valueExtent c).2
  | .alignOfVal => c.resultUsize (← valueExtent c).2
  | .typeName => typeName c
  | .typeId => c.result (.ofNat (← (← c.typeArg 0).identity))
  | .needsDrop => c.result (.ofBool (← c.typeArg 0).needsDrop)
  | .floatMath fn single => floatMath c fn single
  | .likely => c.result (← c.prim 0)
  | .unlikely => c.result (← c.prim 0)
  | .forget => return ()
  | .breakpoint => Run.fail (.unknownIntrinsic c.callee)

def callIntrinsic (c : IntrinsicCall) : Run Machine Unit := do
  if c.args.length ≠ c.intrinsic.arity then
    Run.fail (.arity (.str c.callee) c.intrinsic.arity c.args.length)
  perform c

end SymExec.Machine

import SymExec.Error
import SymExec.Term

/-!
# The catalogue of intrinsics

Every intrinsic that can be called, its name and its number of arguments. `Intrinsic.ofName?`
recognises a callee; the name of an atomic operation may be followed by memory orderings, which
make no difference on a machine with one thread.
-/
namespace SymExec

inductive FloatFn where
  | sin | cos | fabs | sqrt | exp | exp2 | log | log10 | log2 | floor | ceil | trunc
  | pow | powi | fma
  deriving DecidableEq, Repr

def FloatFn.name : FloatFn → String
  | sin => "sin"
  | cos => "cos"
  | fabs => "fabs"
  | sqrt => "sqrt"
  | exp => "exp"
  | exp2 => "exp2"
  | log => "log"
  | log10 => "log10"
  | log2 => "log2"
  | floor => "floor"
  | ceil => "ceil"
  | trunc => "trunc"
  | pow => "pow"
  | powi => "powi"
  | fma => "fma"

def FloatFn.arity : FloatFn → Nat
  | fma => 3
  | pow | powi => 2
  | _ => 1

def FloatFn.all : List FloatFn :=
  [sin, cos, fabs, sqrt, exp, exp2, log, log10, log2, floor, ceil, trunc, pow, powi, fma]

inductive OverflowOp where
  | add | sub | mul
  deriving DecidableEq, Repr

def OverflowOp.op : OverflowOp → BinOp
  | add => .add
  | sub => .sub
  | mul => .mul

/-- Operations of an atomic read, modify and write. -/
inductive FetchOp where
  | or | xor | and | add | sub
  deriving DecidableEq, Repr

def FetchOp.op : FetchOp → BinOp
  | or => .bitOr
  | xor => .bitXor
  | and => .bitAnd
  | add => .add
  | sub => .sub

def FetchOp.name : FetchOp → String
  | or => "or"
  | xor => "xor"
  | and => "and"
  | add => "xadd"
  | sub => "xsub"

/-- The functions that the machine carries out itself. -/
inductive Intrinsic where
  | withOverflow (op : OverflowOp)
  | overflowing (op : OverflowOp)
  | exactDiv
  | fastAdd | fastSub | fastMul | fastDiv | fastRem
  | countOnes
  | leadingZeros (nonzero : Bool)
  | trailingZeros (nonzero : Bool)
  | swapBytes
  | load (volatile : Bool)
  | store (volatile : Bool)
  | exchange
  | compareExchange
  | fetch (op : FetchOp)
  | fence
  | offset (wrapping : Bool)
  | alignOffset
  | assume
  | copy (overlapping : Bool)
  | writeBytes
  | init
  | uninit
  | moveValInit
  | transmute
  | sizeOf
  | minAlignOf
  | prefAlignOf
  | sizeOfVal
  | minAlignOfVal
  | alignOfVal
  | typeName
  | typeId
  | needsDrop
  | floatMath (fn : FloatFn) (single : Bool)
  | likely
  | unlikely
  | forget
  | breakpoint
  deriving DecidableEq, Repr

namespace Intrinsic

/-- The name of an intrinsic. Atomic operations are named without their memory ordering. -/
def name : Intrinsic → String
  | withOverflow op => op.op.name ++ "_with_overflow"
  | overflowing op => "overflowing_" ++ op.op.name
  | exactDiv => "exact_div"
  | fastAdd => "fadd_fast"
  | fastSub => "fsub_fast"
  | fastMul => "fmul_fast"
  | fastDiv => "fdiv_fast"
  | fastRem => "frem_fast"
  | countOnes => "ctpop"
  | leadingZeros nonzero => if nonzero then "ctlz_nonzero" else "ctlz"
  | trailingZeros nonzero => if nonzero then "cttz_nonzero" else "cttz"
  | swapBytes => "bswap"
  | load volatile => if volatile then "volatile_load" else "atomic_load"
  | store volatile => if volatile then "volatile_store" else "atomic_store"
  | exchange => "atomic_xchg"
  | compareExchange => "atomic_cxchg"
  | fetch op => "atomic_" ++ op.name
  | fence => "atomic_fence_acq"
  | offset wrapping => if wrapping then "arith_offset" else "offset"
  | alignOffset => "align_offset"
  | assume => "assume"
  | copy overlapping => if overlapping then "copy" else "copy_nonoverlapping"
  | writeBytes => "write_bytes"
  | init => "init"
  | uninit => "uninit"
  | moveValInit => "move_val_init"
  | transmute => "transmute"
  | sizeOf => "size_of"
  | minAlignOf => "min_align_of"
  | prefAlignOf => "pref_align_of"
  | sizeOfVal => "size_of_val"
  | minAlignOfVal => "min_align_of_val"
  | alignOfVal => "align_of_val"
  | typeName => "type_name"
  | typeId => "type_id"
  | needsDrop => "needs_drop"
  | floatMath fn single => fn.name ++ (if single then "f32" else "f64")
  | likely => "likely"
  | unlikely => "unlikely"
  | forget => "forget"
  | breakpoint => "breakpoint"

def arity : Intrinsic → Nat
  | withOverflow _ | overflowing _ | exactDiv | fastAdd | fastSub | fastMul | fastDiv | fastRem => 2
  | countOnes | leadingZeros _ | trailingZeros _ | swapBytes => 1
  | load _ => 1
  | store _ => 2
  | exchange => 2
  | compareExchange => 3
  | fetch _ => 2
  | fence => 0
  | offset _ | alignOffset => 2
  | assume => 1
  | copy _ | writeBytes => 3
  | init | uninit => 0
  | moveValInit => 2
  | transmute => 1
  | sizeOf | minAlignOf | prefAlignOf => 0
  | sizeOfVal | minAlignOfVal | alignOfVal => 1
  | typeName | typeId | needsDrop => 0
  | floatMath fn _ => fn.arity
  | likely | unlikely | forget => 1
  | breakpoint => 0

/-- The intrinsics whose names do not start with `atomic_`. -/
def plain : List Intrinsic :=
  [.add, .sub, .mul].map withOverflow ++ [.add, .sub, .mul].map overflowing ++
  [exactDiv, fastAdd, fastSub, fastMul, fastDiv, fastRem,
    countOnes, leadingZeros false, trailingZeros false, leadingZeros true, trailingZeros true,
    swapBytes, load true, store true, offset false, offset true, alignOffset, assume,
    copy true, copy false, writeBytes, init, uninit, moveValInit, transmute,
    sizeOf, minAlignOf, prefAlignOf, sizeOfVal, minAlignOfVal, alignOfVal,
    typeName, typeId, needsDrop] ++
  FloatFn.all.flatMap (fun fn => [floatMath fn true, floatMath fn false]) ++
  [likely, unlikely, forget, breakpoint]

/-- The atomic operations. A weak exchange never fails by chance. -/
def atomics : List (String × Intrinsic) :=
  [("load", load false), ("store", store false), ("xchg", exchange),
    ("cxchg", compareExchange), ("cxchgweak", compareExchange)] ++
  [.or, .xor, .and, .add, .sub].map fun op : FetchOp => (op.name, fetch op)

/-- The memory orderings that may follow the name of an atomic operation. -/
def orderings : List String :=
  ["acq", "rel", "acqrel", "relaxed", "unordered", "seqcst", "failrelaxed", "failacq"]

def ofName? (callee : String) : Option Intrinsic :=
  if callee = fence.name then some fence
  else
    match (callee.toList.splitOn '_').map String.ofList with
    | "atomic" :: operation :: rest =>
      if rest.all orderings.contains then atomics.lookup operation else none
    | _ => plain.find? fun i => i.name == callee

end Intrinsic
end SymExec

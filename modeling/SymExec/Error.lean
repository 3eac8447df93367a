import SymExec.Op
import SymExec.Ty.Name

/-!
# Errors

An `EvalError` ends one execution path and names its cause; `EvalError.kind` sorts the causes and
`EvalError.message` puts them into words. A `Failure` is an error of the path or one that ends the
whole run: a numeral that cannot be read, or a value of a shape that no rule covers. An error of the
path with a message that cannot be written is one of these too.
-/
namespace SymExec

inductive ErrorKind where
  | unimplemented
  | invalidChar | readPointerAsBytes | intrinsic | assumptionNotHeld | typeError
  | panic | unreachable | divisionByZero
  | outOfBounds | alignment | danglingPointer | readUndefBytes | invalidPointerMath
  | stepLimit | memoryLimit | stackLimit
  | infeasiblePath
  deriving DecidableEq, Repr

def ErrorKind.label : ErrorKind → String
  | unimplemented => "unimplemented"
  | invalidChar => "invalid_char"
  | readPointerAsBytes => "read_pointer_as_bytes"
  | intrinsic => "intrinsic"
  | assumptionNotHeld => "assumption_not_held"
  | typeError => "type_error"
  | panic => "panic"
  | unreachable => "unreachable"
  | divisionByZero => "division_by_zero"
  | outOfBounds => "out_of_bounds"
  | alignment => "alignment"
  | danglingPointer => "dangling_pointer"
  | readUndefBytes => "read_undef_bytes"
  | invalidPointerMath => "invalid_pointer_math"
  | stepLimit => "step_limit"
  | memoryLimit => "memory_limit"
  | stackLimit => "stack_limit"
  | infeasiblePath => "infeasible_path"

/-- Why an execution path ends. -/
inductive EvalError where
  -- what is not supported
  | noIntegerKind (bytes : Nat)
  | symbolicOffset
  | concreteNeeded
  | overflowCheck (op : BinOp)
  | symbolicAccess
  | floatOperator (op : String) (kind : Kind)
  | symbolicPointerComparison
  | symbolicFloat (kind : Kind)
  | checkedOperator (op : BinOp)
  | symbolicShiftCheck
  | cast (source dest : Ty)
  | signExtension
  | unknownIntrinsic (name : String)
  | symbolicCount (callee : String)
  | symbolicLength (callee : String)
  | symbolicIndex
  | symbolicSliceLength
  | symbolicAddress
  | symbolicOperand (callee : String)
  | constantType (type : Ty)
  | entryMissing (name : String)
  | entryReturns (name : String)
  | mainSignature
  | targetSignature
  -- what a value or type has to be
  | invalidChar (value : Nat)
  | pointerAsBytes
  | zeroOperand (callee : String)
  | assumptionFailed
  | unsizedType (type : Ty)
  | innerUnsizedField
  | notPrimitive (type : Ty)
  | notSymbolic (form : String)
  | invalidBool (value : Nat)
  | symbolicWidth (cells : Nat) (kind : Kind)
  | slotWidth (cells : Nat) (size : Int)
  | arity (callee : Json) (expected : Int) (given : Nat)
  | notPair (type : Ty)
  | pairOperand (type : Ty)
  | fieldAccess (type : Ty)
  | noField (type : Ty) (index : Int)
  | noLocal (function : Json) (index : Int)
  | lengthMissing
  | indexInto (type : Ty)
  | noBlock (function : Json) (block : Int)
  | lengthOf (type : Ty)
  | typeArgumentMissing (callee : String) (index : Nat)
  | notPointer (type : Ty)
  | transmuteSizes (source : Ty) (sourceSize : Int) (dest : Ty) (destSize : Int)
  | valueWithoutLength (callee : String)
  -- what the program does
  | panic (message : Json)
  | unreachableCode
  | callReturned (callee : Json)
  | functionReturned (function : Json)
  | divisionByZero
  -- memory
  | accessOutside (size : Int) (alloc offset : Nat) (bound : Nat)
  | indexOutside (length index : Int)
  | offsetOutside
  | invalidAlignment (align : Int)
  | misaligned (alloc offset : Nat) (align : Int)
  | notStart
  | freeDead (alloc : Nat)
  | freeStatic
  | freeKind (held asked : String)
  | freeSize (held given : Nat)
  | dead (alloc : Nat)
  | undefinedRead
  | pointerOperator (op : BinOp)
  | checkedPointer (op : BinOp)
  | integerAsPointer (payload : String)
  | integerOffset
  -- limits
  | stepLimit (limit : Int)
  | memoryLimit (size free : Int)
  | stackLimit (limit : Int)
  -- feasibility
  | unsatisfiable
  | noBranch
  deriving Repr, Inhabited

namespace EvalError

def kind : EvalError → ErrorKind
  | noIntegerKind _ | symbolicOffset | concreteNeeded | overflowCheck _ | symbolicAccess
  | floatOperator _ _ | symbolicPointerComparison | symbolicFloat _ | checkedOperator _
  | symbolicShiftCheck | cast _ _ | signExtension | unknownIntrinsic _ | symbolicCount _
  | symbolicLength _ | symbolicIndex | symbolicSliceLength | symbolicAddress | symbolicOperand _
  | constantType _ | entryMissing _ | entryReturns _ | mainSignature | targetSignature =>
    .unimplemented
  | invalidChar _ => .invalidChar
  | pointerAsBytes => .readPointerAsBytes
  | zeroOperand _ => .intrinsic
  | assumptionFailed => .assumptionNotHeld
  | unsizedType _ | innerUnsizedField | notPrimitive _ | notSymbolic _ | invalidBool _
  | symbolicWidth _ _ | slotWidth _ _ | arity _ _ _ | notPair _ | pairOperand _ | fieldAccess _
  | noField _ _ | noLocal _ _ | lengthMissing | indexInto _ | noBlock _ _ | lengthOf _
  | typeArgumentMissing _ _ | notPointer _ | transmuteSizes _ _ _ _ | valueWithoutLength _ =>
    .typeError
  | panic _ => .panic
  | unreachableCode | callReturned _ | functionReturned _ => .unreachable
  | divisionByZero => .divisionByZero
  | accessOutside _ _ _ _ | indexOutside _ _ | offsetOutside => .outOfBounds
  | invalidAlignment _ | misaligned _ _ _ => .alignment
  | notStart | freeDead _ | freeStatic | freeKind _ _ | freeSize _ _ | dead _ => .danglingPointer
  | undefinedRead => .readUndefBytes
  | pointerOperator _ | checkedPointer _ | integerAsPointer _ | integerOffset =>
    .invalidPointerMath
  | stepLimit _ => .stepLimit
  | memoryLimit _ _ => .memoryLimit
  | stackLimit _ => .stackLimit
  | unsatisfiable | noBranch => .infeasiblePath

def message : EvalError → String
  | noIntegerKind bytes => s!"no integer kind of {bytes} bytes"
  | symbolicOffset => "concrete offset of a pointer with symbolic offset"
  | concreteNeeded => "concrete value required for symbolic operand"
  | overflowCheck op => s!"overflow check for {op.name}"
  | symbolicAccess => "memory access through a pointer with symbolic offset"
  | floatOperator op kind => s!"{op} on {kind.label}"
  | symbolicPointerComparison => "comparison of pointers with symbolic offsets"
  | symbolicFloat kind => s!"symbolic {kind.label} arithmetic"
  | checkedOperator op => s!"checked {op.name}"
  | symbolicShiftCheck => "overflow check of a symbolic shift amount"
  | cast source dest => s!"{source.text} to {dest.text} cast"
  | signExtension => "sign extension of symbolic integer"
  | unknownIntrinsic name => s!"unimplemented intrinsic: {name}"
  | symbolicCount callee => s!"{callee} with a symbolic count"
  | symbolicLength callee => s!"{callee} with a symbolic length"
  | symbolicIndex => "indexing with a symbolic index"
  | symbolicSliceLength => "symbolic slice length"
  | symbolicAddress => "symbolic offset of an integer address"
  | symbolicOperand callee => s!"{callee} on a symbolic operand"
  | constantType type => s!"constant of type {type.text}"
  | entryMissing name => s!"entry function {name} not found"
  | entryReturns name => s!"entry function {name} must return ()"
  | mainSignature => "main functions without `fn()` type signatures are not supported"
  | targetSignature => "functions without `fn(&[u8])` type signatures are not supported"
  | invalidChar value => s!"tried to interpret an invalid 32-bit value as a char: {value}"
  | pointerAsBytes =>
    "a raw memory access tried to access part of a pointer value as raw bytes"
  | zeroOperand callee => s!"{callee} called on 0"
  | assumptionFailed => "`assume` argument was false"
  | unsizedType type => s!"size of unsized type {type.text}"
  | innerUnsizedField => "only the last field of an aggregate may be unsized"
  | notPrimitive type => s!"{type.text} is not a primitive type"
  | notSymbolic form => s!"expected an abstract value, got {form}"
  | invalidBool value => s!"invalid boolean value read: {value}"
  | symbolicWidth cells kind =>
    s!"abstract value has {cells} bytes, {kind.label} needs {kind.numBytes}"
  | slotWidth cells size => s!"writing {cells} symbolic bytes into {size} byte slot"
  | arity callee expected given =>
    s!"{callee.display} takes {expected} arguments but {given} were supplied"
  | notPair type => s!"{type.text} is not a pair type"
  | pairOperand type => s!"expected a primitive, found a pair of type {type.text}"
  | fieldAccess type => s!"field access on {type.text}"
  | noField type index => s!"{type.text} has no field {index}"
  | noLocal function index => s!"{function.display} has no local _{index}"
  | lengthMissing => "unsized place without a length"
  | indexInto type => s!"indexing into {type.text}"
  | noBlock function block => s!"{function.display} has no block bb{block}"
  | lengthOf type => s!"length of {type.text}"
  | typeArgumentMissing callee index => s!"{callee} needs type argument {index}"
  | notPointer type => s!"{type.text} is not a pointer type"
  | transmuteSizes source sourceSize dest destSize =>
    s!"transmute between types of different size: {source.text} ({sourceSize}) and " ++
      s!"{dest.text} ({destSize})"
  | valueWithoutLength callee => s!"{callee} of an unsized value without length"
  | panic message => message.display
  | unreachableCode => "entered unreachable code"
  | callReturned callee => s!"diverging call to {callee.display} returned"
  | functionReturned function => s!"diverging function {function.display} returned"
  | divisionByZero => "attempt to divide by zero"
  | accessOutside size alloc offset bound =>
    s!"access of {size} bytes at alloc{alloc}+{offset} outside allocation of {bound} bytes"
  | indexOutside length index =>
    s!"index out of bounds: the len is {length} but the index is {index}"
  | offsetOutside => "pointer offset outside of its allocation"
  | invalidAlignment align => s!"invalid alignment {align}"
  | misaligned alloc offset align => s!"access at alloc{alloc}+{offset} requires alignment {align}"
  | notStart => "deallocating a pointer that is not the start of an allocation"
  | freeDead alloc => s!"deallocating alloc{alloc}, which is not live"
  | freeStatic => "deallocating static memory"
  | freeKind held asked => s!"deallocating {held} memory as {asked}"
  | freeSize held given => s!"deallocating {held} bytes with size {given}"
  | dead alloc => s!"alloc{alloc} is not live"
  | undefinedRead => "attempted to read undefined bytes"
  | pointerOperator op => s!"{op.name} on pointers"
  | checkedPointer op => s!"checked {op.name} on pointers"
  | integerAsPointer payload => s!"integer {payload} used as a pointer"
  | integerOffset => "offset of an integer address"
  | stepLimit limit => s!"reached the configured maximum of {limit} steps"
  | memoryLimit size free =>
    s!"tried to allocate {size} more bytes, but only {free} bytes are free"
  | stackLimit limit => s!"reached the configured maximum of {limit} stack frames"
  | unsatisfiable => "path constraints are unsatisfiable"
  | noBranch => "no feasible branch"

/-- The message as a value: that of a panic may be any value the program gave. -/
def detail : EvalError → Json
  | panic message => message
  | e => .str e.message

end EvalError

/-- What a message shows of a program. -/
inductive Shown where
  | type (t : Ty)
  | value (v : Json)

def Shown.fault? : Shown → Option Unwritable
  | type t => t.nameFault?
  | value v => if v.isPrintable then none else some .tooLong

namespace EvalError

/-- What the message shows of the program, from left to right. -/
def shown : EvalError → List Shown
  | cast source dest => [.type source, .type dest]
  | constantType type | unsizedType type | notPrimitive type | notPair type | pairOperand type
  | fieldAccess type | indexInto type | lengthOf type | notPointer type => [.type type]
  | noField type index => [.type type, .value (.int index)]
  | transmuteSizes source sourceSize dest destSize =>
    [.type source, .value (.int sourceSize), .type dest, .value (.int destSize)]
  | slotWidth _ size | accessOutside size _ _ _ => [.value (.int size)]
  | arity callee expected _ => [.value callee, .value (.int expected)]
  | noLocal function index => [.value function, .value (.int index)]
  | noBlock function block => [.value function, .value (.int block)]
  | indexOutside length index => [.value (.int length), .value (.int index)]
  | callReturned name | functionReturned name => [.value name]
  | panic message => [.value message]
  | _ => []

/-- Why the message cannot be written. -/
def fault? (e : EvalError) : Option Unwritable := e.shown.findSome? Shown.fault?

end EvalError

inductive Failure where
  /-- An error of the execution path. -/
  | error (cause : EvalError)
  /-- A constant whose text is no numeral, or a number too long to be written. -/
  | numeral (cause : Text.NumeralError)
  /-- A value of a shape that no rule covers. -/
  | crash
  deriving Repr, Inhabited

def Unwritable.failure : Unwritable → Failure
  | notText => .crash
  | tooLong => .numeral .unprintable

/-- A failure once its message is written. If that fails, so does the rest. -/
def Failure.written : Failure → Failure
  | error e => (e.fault?.map Unwritable.failure).getD (error e)
  | c => c

/-- What fails with an error of the path fails. -/
def EvalError.lift {α : Type} : Except EvalError α → Except Failure α
  | .ok a => .ok a
  | .error e => .error (.error e)

instance : MonadLift (Except EvalError) (Except Failure) := ⟨EvalError.lift⟩

/-- Computations that read and change a state of type `σ`. What was changed before a failure stays
changed. -/
abbrev Run (σ : Type) := EStateM Failure σ

def Run.of {σ α : Type} : Except Failure α → Run σ α
  | .ok a => pure a
  | .error e => throw e

instance {σ : Type} : MonadLift (Except Failure) (Run σ) := ⟨Run.of⟩

instance {σ : Type} : MonadLift (Except EvalError) (Run σ) := ⟨fun e => Run.of (EvalError.lift e)⟩

def Run.fail {σ α : Type} (cause : EvalError) : Run σ α := throw (.error cause)

/-- Fails with an error of the path that reports some numbers. If one of them has too many digits to
be written, that is the failure. -/
def Run.failReporting {σ α : Type} (numbers : List Int) (cause : EvalError) : Run σ α :=
  if numbers.all Text.isPrintableInt then Run.fail cause else throw (.numeral .unprintable)

/-- Writes the message of an error of the path. -/
def Run.written {σ α : Type} (act : Run σ α) : Run σ α := fun s =>
  match act s with
  | .ok a s => .ok a s
  | .error c s => .error c.written s

end SymExec

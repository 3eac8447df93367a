import SymExec.Error

/-!
# The layout of types

The layout of types on a 64-bit machine. An aggregate has its fields in the order of declaration, each
at the next multiple of its alignment; its own size is a multiple of its alignment. An aggregate is
unsized if its last field is.
-/
namespace SymExec

namespace Ty

/-! ## Layout -/

/-- The size (none if unsized) and the alignment of a type. -/
structure Layout where
  size : Option Int
  align : Nat
  deriving DecidableEq, Repr

/-- The least multiple of `align` that is not below `n`. -/
def alignUp (n : Int) (align : Nat) : Int := (n + align - 1) / align * align

/-- The layout of a pointer to a type of the given layout; one to an unsized type has a length. -/
def Layout.pointer (pointee : Layout) : Layout :=
  match pointee.size with
  | some _ => ⟨some pointerSize, pointerSize⟩
  | none => ⟨some (2 * pointerSize), pointerSize⟩

mutual

def layout : Ty → Except EvalError Layout
  | int w _ _ => .ok ⟨some w.bytes, w.bytes⟩
  | bool => .ok ⟨some 1, 1⟩
  | char => .ok ⟨some 4, 4⟩
  | f32 => .ok ⟨some 4, 4⟩
  | f64 => .ok ⟨some 8, 8⟩
  | rawPtr pointee _ => do return (← pointee.layout).pointer
  | ref pointee _ => do return (← pointee.layout).pointer
  | fnPtr _ => .ok ⟨some pointerSize, pointerSize⟩
  | slice elem => do return ⟨none, (← elem.layout).align⟩
  | str => .ok ⟨none, 1⟩
  | array elem length => do
    let inner ← elem.layout
    match inner.size with
    | some size => return ⟨some (size * length), inner.align⟩
    | none => throw (.unsizedType elem)
  | tuple fields => do return (← place fields 0 1).2
  | struct _ fields _ => do return (← place fields 0 1).2

/-- Places fields from `offset` on: their offsets, and the layout of the aggregate whose fields
so far have the alignment `align`. -/
def place : List Ty → (offset : Int) → (align : Nat) → Except EvalError (List Int × Layout)
  | [], offset, align => .ok ([], ⟨some (alignUp offset align), align⟩)
  | t :: ts, offset, align => do
    let inner ← t.layout
    let start := alignUp offset inner.align
    let align := max align inner.align
    match inner.size with
    | none => if ts.isEmpty then return ([start], ⟨none, align⟩) else throw .innerUnsizedField
    | some size =>
      let (offsets, whole) ← place ts (start + size) align
      return (start :: offsets, whole)

end

def fields? : Ty → Option (List Ty)
  | tuple fields => some fields
  | struct _ fields _ => some fields
  | _ => none

def offsets (fields : List Ty) : Except EvalError (List Int) := do return (← place fields 0 1).1

def isSized (t : Ty) : Except EvalError Bool := do return (← t.layout).size.isSome

/-- The size of a type. An unsized type has none. -/
def size (t : Ty) : Except EvalError Int := do
  match (← t.layout).size with
  | some size => return size
  | none => throw (.unsizedType t)

def align (t : Ty) : Except EvalError Nat := do return (← t.layout).align

/-! ## Properties -/

mutual

/-- Whether dropping a value of the type runs code. -/
def needsDrop : Ty → Bool
  | array elem length => 0 < length && elem.needsDrop
  | tuple fields => anyDrop fields
  | struct _ fields dropGlue => dropGlue || anyDrop fields
  | _ => false

def anyDrop : List Ty → Bool
  | [] => false
  | t :: ts => t.needsDrop || anyDrop ts

end

def isUnit : Ty → Bool
  | tuple [] => true
  | _ => false

def pointee? : Ty → Option Ty
  | rawPtr pointee _ => some pointee
  | ref pointee _ => some pointee
  | _ => none

/-- What a pointer type points to; an error for other types. -/
def pointee (t : Ty) : Except EvalError Ty :=
  match t.pointee? with
  | some p => .ok p
  | none => .error (.notPointer t)

/-- Whether values are pairs of a pointer and a length. -/
def isFat (t : Ty) : Except EvalError Bool :=
  match t.pointee? with
  | some p => do return !(← p.isSized)
  | none => .ok false

inductive Category where
  | int | bool | char | float | rawPtr | ref | fnPtr | aggregate | unsized
  deriving DecidableEq, Repr

def Category.label : Category → String
  | int => "int"
  | bool => "bool"
  | char => "char"
  | float => "float"
  | rawPtr => "raw_ptr"
  | ref => "ref"
  | fnPtr => "fn_ptr"
  | aggregate => "aggregate"
  | unsized => "unsized"

def category : Ty → Category
  | int _ _ _ => .int
  | bool => .bool
  | char => .char
  | f32 => .float
  | f64 => .float
  | rawPtr _ _ => .rawPtr
  | ref _ _ => .ref
  | fnPtr _ => .fnPtr
  | slice _ => .unsized
  | str => .unsized
  | array _ _ => .aggregate
  | tuple _ => .aggregate
  | struct _ _ _ => .aggregate

def isPrimitive (t : Ty) : Except EvalError Bool :=
  match t.category with
  | .aggregate | .unsized => .ok false
  | _ => do return !(← t.isFat)

def kind (t : Ty) : Except EvalError Kind :=
  match t with
  | int w signed _ => .ok (.int w signed)
  | bool => .ok .bool
  | char => .ok .char
  | f32 => .ok .f32
  | f64 => .ok .f64
  | fnPtr _ => .ok .fnPtr
  | t =>
    match t.pointee? with
    | some p => do if ← p.isSized then return .ptr else throw (.notPrimitive t)
    | none => .error (.notPrimitive t)

/-! ## Values of unsized types -/

mutual

/-- The size and alignment of a value whose unsized part, if any, has `length` elements. An unsized
aggregate is its sized front and its tail, rounded up to their common alignment. -/
def extent (length : Option Int) : Ty → Except Failure (Option Int × Nat)
  | slice elem => do
    let size ← elem.size
    match length with
    | some n => return (some (size * n), ← elem.align)
    | none => throw .crash
  | str => .ok (length, 1)
  | tuple fields => do aggregateExtent length (← (tuple fields).layout) fields
  | struct name fields dropGlue => do
    aggregateExtent length (← (struct name fields dropGlue).layout) fields
  | t => do return (some (← t.size), ← t.align)

def aggregateExtent (length : Option Int) (whole : Layout) (fields : List Ty) :
    Except Failure (Option Int × Nat) := do
  match whole.size with
  | some size => return (some size, whole.align)
  | none =>
    let starts ← offsets fields
    let (tail, tailAlign) ← lastExtent length fields
    match starts.getLast?, tail with
    | some start, some tail =>
      let align := max whole.align tailAlign
      return (some (alignUp (start + tail) align), align)
    | _, _ => throw .crash

def lastExtent (length : Option Int) : List Ty → Except Failure (Option Int × Nat)
  | [] => .error .crash
  | [t] => extent length t
  | _ :: ts => lastExtent length ts

end

end Ty
end SymExec

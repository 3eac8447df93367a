import SymExec.Cell
import SymExec.Error

/-!
# Primitive values

A primitive value is a bit pattern, a pointer, symbolic bytes or undefined. Patterns have 128 bits;
one of a signed kind is kept sign-extended, so that it reads back as the same number at any width.
-/
namespace SymExec

mutual

/-- A pointer into an allocation. After symbolic arithmetic its offset is a value of its own. -/
inductive Pointer where
  | known (alloc : Nat) (offset : Nat)
  | symbolic (alloc : Nat) (offset : Scalar)

inductive Scalar where
  | bits (pattern : BitVec 128)
  | ptr (pointer : Pointer)
  | undef
  /-- Byte cells, low byte first. -/
  | cells (list : List Cell)

end

deriving instance DecidableEq, Repr for Pointer, Scalar

instance : Inhabited Scalar := ⟨.undef⟩

namespace Scalar

/-! ## Making values -/

def ofNat (n : Nat) : Scalar := bits (BitVec.ofNat 128 n)

def ofInt (n : Int) : Scalar := bits (BitVec.ofInt 128 n)

def ofBool (b : Bool) : Scalar := bits (if b then 1 else 0)

/-- The value of a kind whose low bits are those of `value`. -/
def ofBits (value : Int) (kind : Kind) : Scalar :=
  let word := BitVec.ofInt kind.bits value
  bits (if kind.isSigned then word.signExtend 128 else word.setWidth 128)

/-- The value that cells spell; a bit pattern if all of them are known. -/
def ofCells (list : List Cell) (kind : Kind) : Scalar :=
  if (Cell.symbols list).isEmpty then ofBits (Cell.valueOf (fun _ => 0) list) kind else cells list

/-! ## Reading values -/

/-- What a value is, in a word. -/
def form : Scalar → String
  | bits _ => "bytes"
  | ptr _ => "ptr"
  | undef => "undef"
  | cells _ => "abstract"

def isSymbolic : Scalar → Bool
  | cells _ => true
  | _ => false

def isUndef : Scalar → Bool
  | undef => true
  | _ => false

def isPtr : Scalar → Bool
  | ptr _ => true
  | _ => false

def toCells : Scalar → Except EvalError (List Cell)
  | cells list => .ok list
  | v => .error (.notSymbolic v.form)

def toPattern : Scalar → Except EvalError (BitVec 128)
  | bits p => .ok p
  | ptr _ => .error .pointerAsBytes
  | undef => .error .undefinedRead
  | cells _ => .error .concreteNeeded

def toU128 (v : Scalar) : Except EvalError Nat := v.toPattern.map BitVec.toNat

def toI128 (v : Scalar) : Except EvalError Int := v.toPattern.map BitVec.toInt

def toU64 (v : Scalar) : Except EvalError Nat := v.toPattern.map fun p => (p.setWidth 64).toNat

def toI64 (v : Scalar) : Except EvalError Int := v.toPattern.map fun p => (p.setWidth 64).toInt

/-- The truth value of a known value, which must be zero or one. -/
def toBool (v : Scalar) : Except EvalError Bool := do
  match ← v.toU128 with
  | 0 => return false
  | 1 => return true
  | n => throw (.invalidBool n)

/-- The number of a value in the low bits that a kind has, signed if the kind is. -/
def numberOf (kind : Kind) (pattern : BitVec 128) : Int :=
  let word := pattern.setWidth kind.bits
  if kind.isSigned then word.toInt else word.toNat

def toNumber (v : Scalar) (kind : Kind) : Except EvalError Int :=
  v.toPattern.map (numberOf kind)

/-! ## Floating-point numbers -/

/-- The value of a floating-point kind, widened to double precision. -/
def toDouble (v : Scalar) (kind : Kind) : Except EvalError Nat :=
  v.toPattern.map fun p =>
    if kind = .f32 then Binary.single.convert Binary.double (p.setWidth 32).toNat
    else (p.setWidth 64).toNat

/-- A number in double precision, rounded to a floating-point kind. -/
def ofDouble (pattern : Nat) (kind : Kind) : Scalar :=
  if kind = .f32 then ofNat (Binary.double.convert Binary.single pattern) else ofNat pattern

/-! ## Text -/

end Scalar

def Cell.list (cells : List Cell) : String :=
  ", ".intercalate (cells.map fun
    | .known b => toString b.toNat
    | .symbol i => "sb" ++ toString i)

mutual

def Pointer.text : Pointer → String
  | .known alloc offset => s!"alloc{alloc}+{offset}"
  | .symbolic alloc offset => s!"alloc{alloc}+" ++ offset.text

def Scalar.text : Scalar → String
  | .bits p => "Bytes(0x" ++ Text.hex 1 p.toNat ++ ")"
  | .ptr p => "Ptr(" ++ p.text ++ ")"
  | .undef => "Undef"
  | .cells list => "Abstract([" ++ Cell.list list ++ "])"

end

/-! ## Pointers -/

namespace Pointer

def alloc : Pointer → Nat
  | known a _ => a
  | symbolic a _ => a

def offset : Pointer → Scalar
  | known _ o => .ofNat o
  | symbolic _ o => o

/-- Moves a pointer; its offset has 64 bits. -/
def offsetBy (delta : Int) : Pointer → Except EvalError Pointer
  | known a o => .ok (known a (BitVec.ofInt 64 (o + delta)).toNat)
  | symbolic _ _ => .error .symbolicOffset

def atOffset (alloc : Nat) : Scalar → Pointer
  | .bits p => known alloc (p.setWidth 64).toNat
  | v => symbolic alloc v

end Pointer

def Scalar.toPtr : Scalar → Except EvalError Pointer
  | .ptr p => .ok p
  | .undef => .error .undefinedRead
  | .bits p => .error (.integerAsPointer (toString p.toNat))
  | .cells list =>
    .error (.integerAsPointer ("(" ++ Cell.list list ++ (if list.length = 1 then ",)" else ")")))

/-- An operand: one primitive value, a pair of them (a pointer with a length), or a place in memory
that holds the value. -/
inductive Value where
  | one (v : Scalar)
  | pair (first second : Scalar)
  | inMemory (p : Pointer)
  deriving Repr

end SymExec

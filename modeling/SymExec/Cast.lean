import SymExec.Store.Derive
import SymExec.Ty

/-!
# Casts between primitive types

What a cast does depends on the form of the value first (pointer, symbolic, known), then on the
types. A pair of types that has no rule is refused.
-/
namespace SymExec.Cast

def refused {α : Type} (source dest : Ty) : Except EvalError α :=
  .error (.cast source dest)

/-- A character is a number of one byte. -/
def toChar (n : Int) : Except EvalError Scalar :=
  if 0 ≤ n ∧ n ≤ 0xff then .ok (.ofInt n) else .error (.invalidChar (BitVec.ofInt 128 n).toNat)

def address (pattern : BitVec 128) : Nat := (pattern.setWidth 64).toNat

def isPointer (t : Ty) : Bool :=
  match t.category with
  | .rawPtr | .ref | .fnPtr => true
  | _ => false

def known (pattern : BitVec 128) (source dest : Ty) : Except EvalError Scalar := do
  match source.category, dest.category with
  | .int, .int | .char, .int | .bool, .int =>
    return .ofBits (Scalar.numberOf (← source.kind) pattern) (← dest.kind)
  | .int, .char | .char, .char | .bool, .char =>
    toChar (Scalar.numberOf (← source.kind) pattern)
  | .int, .float =>
    let format := match dest with
      | .f32 => Binary.single
      | _ => Binary.double
    return .ofNat (format.ofInt (Scalar.numberOf (← source.kind) pattern))
  | .int, .rawPtr =>
    return .ofNat (BitVec.ofInt 64 (Scalar.numberOf (← source.kind) pattern)).toNat
  | _, .int =>
    if isPointer source then return .ofBits (address pattern) (← dest.kind)
    else refused source dest
  | _, _ =>
    if isPointer source && isPointer dest then return .ofNat (address pattern)
    else refused source dest

def pointer (p : Pointer) (source dest : Ty) : Except EvalError Scalar :=
  match dest with
  | .rawPtr _ _ | .fnPtr _ => .ok (.ptr p)
  | .int _ _ pointerSized => if pointerSized then .ok (.ptr p) else .error .pointerAsBytes
  | _ => refused source dest

/-- Cuts symbolic cells, or pads them with zeros. -/
def resize (cells : List Cell) (source dest : Kind) : Except EvalError (List Cell) :=
  if dest.numBytes < source.numBytes then .ok (cells.take dest.numBytes)
  else if source.numBytes < dest.numBytes then
    if source.isSigned then .error .signExtension
    else .ok (cells ++ List.replicate (dest.numBytes - source.numBytes) (.known 0))
  else .ok cells

def symbolic (cells : List Cell) (source dest : Ty) : Run Store Scalar := do
  match source.category, dest.category with
  | .int, .int | .int, .char | .char, .int | .char, .char =>
    let destKind ← dest.kind
    match Scalar.ofCells (← resize cells (← source.kind) destKind) destKind with
    | .bits pattern =>
      if dest.category = .char then toChar (Scalar.numberOf destKind pattern)
      else return .bits pattern
    | v => return v
  | .bool, .int =>
    let destKind ← dest.kind
    Store.select (.cells cells) (.ofBits 1 destKind) (.ofBits 0 destKind) destKind
  | _, _ => (refused source dest : Except EvalError Scalar)

def cast (v : Scalar) (source dest : Ty) : Run Store Scalar :=
  match v with
  | .undef => return .undef
  | .ptr p => pointer p source dest
  | .cells list => symbolic list source dest
  | .bits pattern => known pattern source dest

end SymExec.Cast

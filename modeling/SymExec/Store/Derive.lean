import SymExec.Scalar
import SymExec.Store.Query
import SymExec.Term.Constant

/-!
# Derived values

Operations on symbolic values are not carried out: the store records the term and gives back fresh
bytes that stand for its value. A term that is constant needs no bytes; its value is returned.

Division follows the rule of bit-vector logic; a shift amount counts modulo the width.
-/
namespace SymExec.Store

/-! ## Operands -/

/-- Fails if a cell names a byte that the store does not have. -/
def checkCells (s : Store) (cells : List Cell) : Except Failure Unit :=
  if (Cell.symbols cells).all (· < s.size) then .ok () else .error .crash

def term (s : Store) (v : Scalar) (kind : Kind) : Except Failure (Term kind.bits) :=
  match v with
  | .bits p => .ok (.const (p.setWidth kind.bits))
  | .cells list => do
    if list.length ≠ kind.numBytes then throw (.error (.symbolicWidth list.length kind))
    s.checkCells list
    return .word kind.bits list
  | .ptr _ => .error (.error .pointerAsBytes)
  | .undef => .error (.error .undefinedRead)

/-- The term of a shift amount, modulo the width; the amount may have a width of its own. -/
def shiftAmount (s : Store) (v : Scalar) (w : Nat) : Except Failure (Term w) :=
  match v with
  | .bits p => .ok (.const (BitVec.ofNat w (p.toNat % w)))
  | .cells list => do
    if (Width.ofBytes? list.length).isNone then throw (.error (.noIntegerKind list.length))
    s.checkCells list
    return .binary .and (.word w list) (.const (BitVec.ofNat w (w - 1)))
  | .ptr _ => .error (.error .pointerAsBytes)
  | .undef => .error (.error .undefinedRead)

/-! ## Conditions -/

def truth (s : Store) (v : Scalar) : Except Failure Condition := do
  return .differ (← s.term v .bool) (.const 0)

def equals (s : Store) (v : Scalar) (n : Int) (kind : Kind) : Except Failure Condition := do
  return .equal (← s.term v kind) (.const (BitVec.ofInt kind.bits n))

/-! ## Results -/

/-- The value of a term: a number if the term is constant, else fresh bytes. -/
def derive (kind : Kind) (t : Term kind.bits) : Run Store Scalar := do
  match t.constant? with
  | some c => return .ofBits c.toNat kind
  | none => do
    let cells ← modifyGet (addDerived kind.numBytes t)
    return .cells cells

def deriveTruth (c : Condition) : Run Store Scalar := derive .bool (.zeroExtend Kind.bool.bits c)

/-- What a binary operator makes of two words. -/
inductive Combined (w : Nat) where
  | word (t : Term w)
  | truth (c : Condition)

def combine {w : Nat} (signed : Bool) (op : BinOp) (a b : Term w) : Combined w :=
  match op with
  | .add => .word (.binary .add a b)
  | .sub => .word (.binary .sub a b)
  | .mul => .word (.binary .mul a b)
  | .div => .word (.binary (if signed then .sdiv else .udiv) a b)
  | .rem => .word (.binary (if signed then .srem else .urem) a b)
  | .bitXor => .word (.binary .xor a b)
  | .bitAnd => .word (.binary .and a b)
  | .bitOr => .word (.binary .or a b)
  | .shl => .word (.binary .shl a b)
  | .shr => .word (.binary (if signed then .ashr else .lshr) a b)
  | .eq => .truth (.equal a b)
  | .ne => .truth (.differ a b)
  | .lt => .truth (.less signed a b)
  | .le => .truth (.atMost signed a b)
  | .gt => .truth (.less signed b a)
  | .ge => .truth (.atMost signed b a)

/-- The second operand: a shift amount, or a value of its own kind, which must have the width of the
first one. -/
def secondOperand (s : Store) (op : BinOp) (v : Scalar) (kind other : Kind) :
    Except Failure (Term kind.bits) :=
  if op.isShift then s.shiftAmount v kind.bits
  else do
    let t ← s.term v other
    if h : other.bits = kind.bits then return h ▸ t else throw .crash

def binary (op : BinOp) (lhs rhs : Scalar) (kind : Kind) (rhsKind : Option Kind) :
    Run Store Scalar := do
  let s ← get
  let a ← s.term lhs kind
  let b ← s.secondOperand op rhs kind (rhsKind.getD kind)
  match combine kind.isSigned op a b with
  | .word t => derive kind t
  | .truth c => deriveTruth c

def widen {w : Nat} (signed : Bool) (t : Term w) : Term (2 * w) :=
  if signed then .signExtend (2 * w) t else .zeroExtend (2 * w) t

/-- The wrapped result of an addition, subtraction or multiplication, and whether it differs from
the exact result, which fits in twice the width. -/
def overflowing (op : BinOp) (lhs rhs : Scalar) (kind : Kind) : Run Store (Scalar × Scalar) := do
  let s ← get
  let a ← s.term lhs kind
  let b ← s.term rhs kind
  let wordOp : WordOp ← match op with
    | .add => pure .add
    | .sub => pure .sub
    | .mul => pure .mul
    | op => Run.fail (.overflowCheck op)
  let widened := fun (t : Term kind.bits) => widen kind.isSigned t
  let wrapped := Term.binary wordOp a b
  let exact := Term.binary wordOp (widened a) (widened b)
  let result ← derive kind wrapped
  let overflowed ← deriveTruth (.differ (widened wrapped) exact)
  return (result, overflowed)

/-- One value or another, as a condition says. -/
def select (cond yes no : Scalar) (kind : Kind) : Run Store Scalar := do
  let s ← get
  let c ← s.truth cond
  let a ← s.term yes kind
  let b ← s.term no kind
  derive kind (.choose c a b)

def countBits (way : BitCount) (v : Scalar) (kind : Kind) : Run Store Scalar := do
  let s ← get
  derive kind (.count way (← s.term v kind))

/-- New input bytes; none if the number is negative. -/
def fresh (n : Int) : Run Store (List Cell) := modifyGet (addInput n.toNat)

def require (c : Condition) : Run Store Unit := modify (push c)

/-- The least value that a value of a kind can have on the path. -/
def witness (s : Store) (v : Scalar) (kind : Kind) : Except Failure Nat := do
  if !s.feasible [] then throw (.error .unsatisfiable)
  return s.leastValue (← s.term v kind)

end SymExec.Store

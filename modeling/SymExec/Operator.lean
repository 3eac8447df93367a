import SymExec.Store.Derive

/-!
# Operators on primitive values

Known operands are computed with as numbers and the result is wrapped to the width of the kind. If
an operand is symbolic, the operation goes to the store. An undefined operand makes the result
undefined, and nothing is recorded.
-/
namespace SymExec.Operator

attribute [local instance(2000)] instPowNat

/-! ## Known operands -/

/-- Whether a comparison holds between operands in the given order; without an order, as with a
number that is not a number, only "not equal" does. -/
def compared (op : BinOp) (order : Option Ordering) : Bool :=
  match op with
  | .eq => order == some .eq
  | .ne => order != some .eq
  | .lt => order == some .lt
  | .le => order == some .lt || order == some .eq
  | .gt => order == some .gt
  | .ge => order == some .gt || order == some .eq
  | _ => false

/-- A binary operation on floating-point numbers, given in double precision. -/
def onFloats (op : BinOp) (x y : Nat) (kind : Kind) : Except EvalError Scalar :=
  let d := Binary.double
  if op.isComparison then .ok (.ofBool (compared op (d.compare? x y)))
  else
    match op with
    | .add => .ok (.ofDouble (d.add x y) kind)
    | .sub => .ok (.ofDouble (d.sub x y) kind)
    | .mul => .ok (.ofDouble (d.mul x y) kind)
    | .div => .ok (.ofDouble (d.div x y) kind)
    | .rem => .ok (.ofDouble (d.rem x y) kind)
    | op => .error (.floatOperator op.name kind)

/-- A binary operation on integers; a shift amount counts modulo the width. -/
def onInts (op : BinOp) (a b : Int) (kind : Kind) : Except EvalError Scalar :=
  let w := kind.bits
  let amount := (b % w).toNat
  if op.isComparison then .ok (.ofBool (compared op (some (compare a b))))
  else
    match op with
    | .add => .ok (.ofBits (a + b) kind)
    | .sub => .ok (.ofBits (a - b) kind)
    | .mul => .ok (.ofBits (a * b) kind)
    | .div => if b = 0 then .error .divisionByZero else .ok (.ofBits (a.tdiv b) kind)
    | .rem => if b = 0 then .error .divisionByZero else .ok (.ofBits (a.tmod b) kind)
    | .bitXor => .ok (.ofBits (BitVec.ofInt w a ^^^ BitVec.ofInt w b).toNat kind)
    | .bitAnd => .ok (.ofBits (BitVec.ofInt w a &&& BitVec.ofInt w b).toNat kind)
    | .bitOr => .ok (.ofBits (BitVec.ofInt w a ||| BitVec.ofInt w b).toNat kind)
    | .shl => .ok (.ofBits (a * 2 ^ amount) kind)
    | _ => .ok (.ofBits (a / 2 ^ amount) kind)

/-- Pointers can only be compared for equality. -/
def onPointers (op : BinOp) (lhs rhs : Scalar) : Except EvalError Scalar :=
  if op ≠ .eq ∧ op ≠ .ne then .error (.pointerOperator op)
  else
    match lhs, rhs with
    | .ptr (.known a x), .ptr (.known b y) =>
      .ok (.ofBool ((a == b && x == y) == (op == .eq)))
    | .ptr p, .ptr q =>
      if p.alloc ≠ q.alloc then .ok (.ofBool (op != .eq)) else .error .symbolicPointerComparison
    | _, _ => .error .pointerAsBytes

/-- The number of binary digits of a number; zero has none. -/
def bitLength (n : Nat) : Nat := if n = 0 then 0 else n.log2 + 1

/-- The number of bits of a sort in a known word: its digits that are one, the digits that it lacks to
its width, or the place of its lowest one, which is all that a word shares with its negative. -/
def bitCount {w : Nat} (way : BitCount) (x : BitVec w) : Nat :=
  match way with
  | .ones => (Nat.toDigits 2 x.toNat).count '1'
  | .leadingZeros => w - bitLength x.toNat
  | .trailingZeros => if x = 0#w then w else bitLength (x &&& -x).toNat - 1

/-! ## All operands -/

/-- The value of `lhs op rhs` for operands of a kind; a shift amount may have a kind of its own. -/
def binary (op : BinOp) (lhs rhs : Scalar) (kind : Kind) (rhsKind : Option Kind) :
    Run Store Scalar := do
  if lhs.isUndef || rhs.isUndef then return .undef
  if lhs.isPtr || rhs.isPtr then onPointers op lhs rhs
  else if kind.isFloat then
    if lhs.isSymbolic || rhs.isSymbolic then Run.fail (.symbolicFloat kind)
    onFloats op (← lhs.toDouble kind) (← rhs.toDouble kind) kind
  else if lhs.isSymbolic || rhs.isSymbolic then
    if let .bits p := rhs then
      if (op = .div ∨ op = .rem) ∧ p.setWidth kind.bits = 0 then Run.fail .divisionByZero
    Store.binary op lhs rhs kind rhsKind
  else if op.isShift then
    let amount ← rhs.toPattern
    onInts op (← lhs.toNumber kind) (amount.setWidth (rhsKind.getD kind).bits).toNat kind
  else onInts op (← lhs.toNumber kind) (← rhs.toNumber kind) kind

def overflowing (op : BinOp) (lhs rhs : Scalar) (kind : Kind) (rhsKind : Option Kind) :
    Run Store (Scalar × Scalar) := do
  if lhs.isUndef || rhs.isUndef then return (.undef, .undef)
  if lhs.isPtr || rhs.isPtr then Run.fail (.checkedPointer op)
  if op.isShift then
    let result ← binary op lhs rhs kind rhsKind
    if rhs.isSymbolic then Run.fail .symbolicShiftCheck
    let amount ← rhs.toPattern
    let amount := (amount.setWidth (rhsKind.getD kind).bits).toNat
    return (result, .ofBool (kind.bits ≤ amount))
  let combine : Int → Int → Int ← match op with
    | .add => pure fun a b => a + b
    | .sub => pure fun a b => a - b
    | .mul => pure fun a b => a * b
    | op => Run.fail (.checkedOperator op)
  if lhs.isSymbolic || rhs.isSymbolic then Store.overflowing op lhs rhs kind
  else
    let value := combine (← lhs.toNumber kind) (← rhs.toNumber kind)
    let result := Scalar.ofBits value kind
    return (result, .ofBool ((← result.toNumber kind) != value))

/-- The value of a unary operation. Negating a floating-point number inverts its sign bit only. -/
def unary (op : UnOp) (v : Scalar) (kind : Kind) : Run Store Scalar := do
  match v with
  | .undef => return .undef
  | .ptr _ => Run.fail .pointerAsBytes
  | v =>
    if kind.isFloat then
      if op ≠ .neg then Run.fail (.floatOperator op.name kind)
      match v with
      | .bits p => return .bits (p ^^^ BitVec.ofNat 128 (2 ^ (kind.bits - 1)))
      | _ => Run.fail (.symbolicFloat kind)
    else
      match op with
      | .not =>
        let mask : Int := if kind = .bool then 1 else -1
        binary .bitXor v (.ofBits mask kind) kind none
      | .neg => binary .sub (.ofNat 0) v kind none

def swapBytes (v : Scalar) (kind : Kind) : Except EvalError Scalar :=
  match v with
  | .undef => .ok .undef
  | .cells list => .ok (.cells list.reverse)
  | v => do
    let p ← v.toPattern
    let bytes := Cell.ofNat p.toNat kind.numBytes
    return .ofBits (Cell.valueOf (fun _ => 0) bytes.reverse) kind

end SymExec.Operator

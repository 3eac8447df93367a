import SymExec.Cell

/-!
# Terms over symbolic bytes

A term of width `w` stands for a `w`-bit word that depends on symbolic bytes. A condition is a term
of width one. Division follows the rule of bit-vector logic: a quotient by zero is all ones (one,
for a negative signed dividend), a remainder by zero is the dividend.
-/
namespace SymExec

/-- Operations that take two words to a word of the same width. -/
inductive WordOp where
  | add | sub | mul | udiv | sdiv | urem | srem
  | and | or | xor
  | shl | lshr | ashr
  deriving DecidableEq, Repr

/-- The meaning of an operation. A shift by the width or more gives zero, or copies of the sign. -/
def WordOp.eval {w : Nat} : WordOp → BitVec w → BitVec w → BitVec w
  | add, x, y => x + y
  | sub, x, y => x - y
  | mul, x, y => x * y
  | udiv, x, y => x.smtUDiv y
  | sdiv, x, y => x.smtSDiv y
  | urem, x, y => x % y
  | srem, x, y => x.srem y
  | and, x, y => x &&& y
  | or, x, y => x ||| y
  | xor, x, y => x ^^^ y
  | shl, x, y => x <<< y
  | lshr, x, y => x >>> y
  | ashr, x, y => x.sshiftRight' y

inductive WordRel where
  | eq | ult | slt
  deriving DecidableEq, Repr

def WordRel.eval {w : Nat} : WordRel → BitVec w → BitVec w → Bool
  | eq, x, y => x == y
  | ult, x, y => x.ult y
  | slt, x, y => x.slt y

inductive BitCount where
  | ones
  | leadingZeros
  /-- The number of zeros below the lowest one. -/
  | trailingZeros
  deriving DecidableEq, Repr

/-- The meaning of a count: a sum of the bits, or a choice made bit after bit, in which the last bit
that is one decides. -/
def BitCount.eval {w : Nat} : BitCount → BitVec w → BitVec w
  | ones, x => (List.range w).foldl (fun n i => n + (x.extractLsb' i 1).setWidth w) 0#w
  | leadingZeros, x =>
    (List.range w).foldl (fun n i => if x.getLsbD i then .ofNat w (w - 1 - i) else n) (.ofNat w w)
  | trailingZeros, x =>
    (List.range w).foldr (fun i n => if x.getLsbD i then .ofNat w i else n) (.ofNat w w)

/-- A word that depends on symbolic bytes. -/
inductive Term : Nat → Type where
  | const {w : Nat} (value : BitVec w) : Term w
  /-- The number that the cells spell, low byte first, cut or padded to the width. -/
  | word (w : Nat) (cells : List Cell) : Term w
  | binary {w : Nat} (op : WordOp) (lhs rhs : Term w) : Term w
  | zeroExtend {w : Nat} (w' : Nat) (t : Term w) : Term w'
  | signExtend {w : Nat} (w' : Nat) (t : Term w) : Term w'
  | count {w : Nat} (way : BitCount) (t : Term w) : Term w
  | choose {w : Nat} (condition : Term 1) (yes no : Term w) : Term w
  /-- One if the relation holds, else zero. -/
  | relation {w : Nat} (rel : WordRel) (lhs rhs : Term w) : Term 1
  | not (t : Term 1) : Term 1
  | and (s t : Term 1) : Term 1

abbrev Condition := Term 1

namespace Term

def eval (v : Valuation) {w : Nat} : Term w → BitVec w
  | const value => value
  | word w cells => BitVec.ofNat w (Cell.valueOf v cells)
  | binary op lhs rhs => op.eval (lhs.eval v) (rhs.eval v)
  | zeroExtend w' t => (t.eval v).setWidth w'
  | signExtend w' t => (t.eval v).signExtend w'
  | count way t => way.eval (t.eval v)
  | choose condition yes no => if condition.eval v = 1#1 then yes.eval v else no.eval v
  | relation rel lhs rhs => BitVec.ofBool (rel.eval (lhs.eval v) (rhs.eval v))
  | not t => ~~~(t.eval v)
  | and s t => s.eval v &&& t.eval v

def holds (v : Valuation) (c : Condition) : Bool := c.eval v == 1#1

def symbols {w : Nat} : Term w → List Nat
  | const _ => []
  | word _ cells => Cell.symbols cells
  | binary _ lhs rhs => lhs.symbols ++ rhs.symbols
  | zeroExtend _ t => t.symbols
  | signExtend _ t => t.symbols
  | count _ t => t.symbols
  | choose condition yes no => condition.symbols ++ yes.symbols ++ no.symbols
  | relation _ lhs rhs => lhs.symbols ++ rhs.symbols
  | not t => t.symbols
  | and s t => s.symbols ++ t.symbols

/-! ## Conditions -/

def always : Condition := const 1#1

def equal {w : Nat} (s t : Term w) : Condition := relation .eq s t

def differ {w : Nat} (s t : Term w) : Condition := not (equal s t)

/-- `s < t`, both read as signed numbers if `signed`. -/
def less {w : Nat} (signed : Bool) (s t : Term w) : Condition :=
  relation (if signed then .slt else .ult) s t

def atMost {w : Nat} (signed : Bool) (s t : Term w) : Condition := not (less signed t s)

def all : List Condition → Condition
  | [] => always
  | [c] => c
  | c :: cs => and c (all cs)

end Term
end SymExec

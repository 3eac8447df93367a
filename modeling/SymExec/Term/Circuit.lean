import SymExec.Term
import Std.Tactic.BVDecide.Bitblast

/-!
# Terms as circuits

The standard library turns bit-vector expressions into circuits and proves that the circuit computes
the expression. This module writes a term in that expression language. What the language lacks
(subtraction, signed division, relations as bits, choice) is spelled out with what it has.

The symbolic bytes of the term are replaced on the way: `env i` is the expression for byte `i`.
-/
namespace SymExec.Term

open Std.Tactic.BVDecide

/-! ## Words -/

namespace Circuit

def bin {w : Nat} (op : BVBinOp) (x y : BVExpr w) : BVExpr w := .bin x op y

def invert {w : Nat} (x : BVExpr w) : BVExpr w := .un .not x

/-- `x - y`, by the identity `x - y = ~(~x + y)`. -/
def sub {w : Nat} (x y : BVExpr w) : BVExpr w := invert (bin .add (invert x) y)

/-- `x` padded with zeros or cut to width `w'`. -/
def resize {w : Nat} (w' : Nat) (x : BVExpr w) : BVExpr w' := .extract 0 w' x

/-- Every bit of the result is the one bit of `b`. -/
def spread (w : Nat) (b : BVExpr 1) : BVExpr w := .replicate w b (by omega)

def sign {w : Nat} (x : BVExpr w) : BVExpr 1 := .extract (w - 1) 1 x

def signExtend {w : Nat} (w' : Nat) (x : BVExpr w) : BVExpr w' :=
  if h : w ≤ w' then .append (spread (w' - w) (sign x)) x (by omega) else resize w' x

/-- `yes` where the bit `b` is one, else `no`. -/
def choose {w : Nat} (b : BVExpr 1) (yes no : BVExpr w) : BVExpr w :=
  bin .or (bin .and (spread w b) yes) (bin .and (invert (spread w b)) no)

/-- One if `x` has a bit set: then and only then does adding all ones carry out of the word. -/
def nonzero {w : Nat} (x : BVExpr w) : BVExpr 1 :=
  .extract w 1 (bin .add (resize (w + 1) x) (.const ((BitVec.allOnes w).setWidth (w + 1))))

/-- One if `x < y`: then and only then does `x - y` borrow. -/
def ult {w : Nat} (x y : BVExpr w) : BVExpr 1 :=
  .extract w 1 (sub (resize (w + 1) x) (resize (w + 1) y))

/-- `x` with its sign bit inverted, which turns the signed order into the unsigned one. -/
def offsetSign {w : Nat} (x : BVExpr w) : BVExpr w := bin .xor x (.const (BitVec.intMin w))

/-- `-x` if the bit `b` is one, else `x`. -/
def negateIf {w : Nat} (b : BVExpr 1) (x : BVExpr w) : BVExpr w :=
  sub (bin .xor x (spread w b)) (spread w b)

def magnitude {w : Nat} (x : BVExpr w) : BVExpr w := negateIf (sign x) x

/-- The unsigned quotient, all ones if the divisor is zero. -/
def udiv {w : Nat} (x y : BVExpr w) : BVExpr w :=
  bin .or (bin .udiv x y) (invert (spread w (nonzero y)))

def binary {w : Nat} : WordOp → BVExpr w → BVExpr w → BVExpr w
  | .add, x, y => bin .add x y
  | .sub, x, y => sub x y
  | .mul, x, y => bin .mul x y
  | .udiv, x, y => udiv x y
  | .sdiv, x, y => negateIf (bin .xor (sign x) (sign y)) (udiv (magnitude x) (magnitude y))
  | .urem, x, y => bin .umod x y
  | .srem, x, y => negateIf (sign x) (bin .umod (magnitude x) (magnitude y))
  | .and, x, y => bin .and x y
  | .or, x, y => bin .or x y
  | .xor, x, y => bin .xor x y
  | .shl, x, y => .shiftLeft x y
  | .lshr, x, y => .shiftRight x y
  | .ashr, x, y => .arithShiftRight x y

def relation {w : Nat} : WordRel → BVExpr w → BVExpr w → BVExpr 1
  | .eq, x, y => invert (nonzero (bin .xor x y))
  | .ult, x, y => ult x y
  | .slt, x, y => ult (offsetSign x) (offsetSign y)

def count {w : Nat} : BitCount → BVExpr w → BVExpr w
  | .ones, x => .un .cpop x
  | .leadingZeros, x => .un .clz x
  | .trailingZeros, x => .un .clz (.un .reverse x)

def cell (env : Nat → BVExpr 8) : Cell → BVExpr 8
  | .known b => .const b
  | .symbol i => env i

/-- The cells one after the other, the first one lowest. -/
def cells (env : Nat → BVExpr 8) : (cs : List Cell) → BVExpr (8 * cs.length)
  | [] => .const 0#0
  | c :: cs => .append (cells env cs) (cell env c) rfl

end Circuit

def circuit (env : Nat → BVExpr 8) {w : Nat} : Term w → BVExpr w
  | const value => .const value
  | word w cs => Circuit.resize w (Circuit.cells env cs)
  | binary op lhs rhs => Circuit.binary op (lhs.circuit env) (rhs.circuit env)
  | zeroExtend w' t => Circuit.resize w' (t.circuit env)
  | signExtend w' t => Circuit.signExtend w' (t.circuit env)
  | count way t => Circuit.count way (t.circuit env)
  | choose condition yes no =>
    Circuit.choose (condition.circuit env) (yes.circuit env) (no.circuit env)
  | relation rel lhs rhs => Circuit.relation rel (lhs.circuit env) (rhs.circuit env)
  | not t => Circuit.invert (t.circuit env)
  | and s t => Circuit.bin .and (s.circuit env) (t.circuit env)

/-! ## Facts

A circuit for a remainder computes a word that is below the divisor, but a search has to find that
out bit by bit. Said beforehand, it saves most of the work.
-/

/-- One, whatever `x` and `y` are: a remainder is below the divisor unless that is zero. -/
def Circuit.remainderFact {w : Nat} (x y : BVExpr w) : BVExpr 1 :=
  bin .or (ult (bin .umod x y) y) (invert (nonzero y))

/-- Expressions that are one, whatever the bytes of the term are. -/
def facts (env : Nat → BVExpr 8) {w : Nat} : Term w → List (BVExpr 1)
  | const _ | word _ _ => []
  | binary op lhs rhs =>
    let x := lhs.circuit env
    let y := rhs.circuit env
    let own := match op with
      | .urem => [Circuit.remainderFact x y]
      | .srem => [Circuit.remainderFact (Circuit.magnitude x) (Circuit.magnitude y)]
      | _ => []
    own ++ lhs.facts env ++ rhs.facts env
  | zeroExtend _ t | signExtend _ t | count _ t | not t => t.facts env
  | choose condition yes no => condition.facts env ++ yes.facts env ++ no.facts env
  | relation _ lhs rhs => lhs.facts env ++ rhs.facts env
  | and s t => s.facts env ++ t.facts env

end SymExec.Term

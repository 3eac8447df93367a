import SymExec.Sat.Solve
import SymExec.Term.Circuit

/-!
# Constant terms

A term is constant if it has the same value whatever its symbolic bytes are: `x - x`, `x & 0` or
"`x < 0`" for an unsigned `x`. `Term.constant?` finds the value.
-/
namespace SymExec.Term

attribute [local instance(2000)] instPowNat

/-- The valuation that spells a number: byte `i` of the list is digit `i` in base 256. -/
def spelled (symbols : List Nat) (code : Nat) : Valuation := fun i =>
  match symbols.idxOf? i with
  | some k => BitVec.ofNat 8 (code / 256 ^ k)
  | none => 0

/-- A few valuations that tell most terms from constants. The last ones spell small numbers. -/
def samples (symbols : List Nat) : List Valuation :=
  [fun _ => 255, fun i => BitVec.ofNat 8 (37 * i + 101), fun i => BitVec.ofNat 8 (91 * i + 6),
    fun _ => 128] ++ [1, 2, 3, 4, 5, 11].map (spelled symbols)

/-- The formula that the term has a value other than `c`. -/
def differs {w : Nat} (t : Term w) (c : BitVec w) : Std.Tactic.BVDecide.BVLogicalExpr :=
  Sat.withFacts (t.facts fun i => .var i)
    (Sat.isOne ((differ t (const c)).circuit fun i => .var i))

def isConstantly {w : Nat} (t : Term w) (c : BitVec w) : Bool :=
  (samples t.symbols.eraseDups).all (fun v => t.eval v == c) &&
    match Sat.solve (t.differs c) [] with
    | .refuted => true
    | .model bits =>
      if (differ t (const c)).holds fun i => Sat.wordOf bits i 8 then false else exhausted
    | .undecided => exhausted
where
  /-- Tries all values of the symbolic bytes. -/
  exhausted : Bool :=
    let symbols := t.symbols.eraseDups
    (Sat.leastBelow (fun code => t.eval (spelled symbols code) != c) (256 ^ symbols.length)).isNone

/-- The value of a term that does not depend on its symbolic bytes. -/
def constant? {w : Nat} (t : Term w) : Option (BitVec w) :=
  let c := t.eval fun _ => 0
  if t.isConstantly c then some c else none

end SymExec.Term

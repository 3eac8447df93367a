import SymExec.Sat.Search
import Std.Tactic.BVDecide.Bitblast
import Std.Tactic.BVDecide.LRAT.Checker
import Std.Sat.AIG.CNF
import Std.Sat.AIG.RelabelNat

/-!
# Deciding bit-vector formulas

A formula is turned into a circuit and the circuit into clauses, both by the standard library, whose
theorems say that this keeps satisfiability. The clauses go to the search. If it answers with a
derivation, the derivation is checked, so `Verdict.refuted` is a proof that the formula has no
model. A model is a mere proposal: whoever asks evaluates it.
-/
namespace SymExec.Sat

open Std.Sat
open Std.Tactic.BVDecide

inductive Verdict where
  /-- Values of the variables' bits under which the formula seems to hold. -/
  | model (bits : BVBit → Bool)
  | refuted
  | undecided

def budget : Nat := 1000000000

/-- Looks for a model of a formula. The bits of `order` are decided first, and as zero, so that the
model found is the least one along `order`. -/
def solve (f : BVLogicalExpr) (order : List BVBit) : Verdict :=
  match f.bitblast.relabelNat' with
  | (entry, atoms) =>
    let clauses := AIG.toCNF entry
    -- the variables of the atoms come after those of the gates
    let shift := entry.aig.decls.size
    let first := (order.filterMap fun b => atoms[b]?).map (· + shift)
    match search clauses first.toArray budget with
    | .model values =>
      .model fun b => match atoms[b]? with
        | some a => values.getD (a + shift) false
        | none => false
    | .derivation steps => if LRAT.check steps clauses then .refuted else .undecided
    | .undecided => .undecided

/-- The bits of a variable, the highest one first. -/
def bitsOf (var width : Nat) : List BVBit :=
  (List.finRange width).reverse.map fun j => { w := width, var := var, idx := j }

def wordOf (bits : BVBit → Bool) (var width : Nat) : BitVec width :=
  BitVec.ofNat width ((bitsOf var width).foldl (fun n b => 2 * n + (bits b).toNat) 0)

def isOne (e : BVExpr 1) : BVLogicalExpr := .literal (.bin e .eq (.const 1#1))

/-- A formula together with facts. Facts are always one, so they change no model, but they help to
find out that there is none. -/
def withFacts (facts : List (BVExpr 1)) (f : BVLogicalExpr) : BVLogicalExpr :=
  facts.foldl (fun f fact => .gate .and f (isOne fact)) f

def leastBelow (p : Nat → Bool) : (n : Nat) → Option Nat
  | 0 => none
  | n + 1 =>
    match leastBelow p n with
    | some k => some k
    | none => if p n then some n else none

end SymExec.Sat

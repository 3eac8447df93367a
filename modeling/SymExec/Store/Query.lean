import SymExec.Store
import SymExec.Error
import SymExec.Sat.Solve
import SymExec.Term.Circuit

/-!
# Questions to the store

Whether the conditions can hold, the least input under which they do, and the least value that a
term can take. The solver proposes answers. A proposed input is evaluated and a proposed "no" is
proved; should either fail, all cases are tried. So the answers do not depend on the solver.

Inputs are compared as byte strings, the first byte first, which is the order of the numbers that
they spell with the first byte highest.
-/
namespace SymExec.Store

attribute [local instance(2000)] instPowNat

open Std.Tactic.BVDecide

/-- The input bytes that a number spells, the first of `n` bytes highest. -/
def spelled (n code : Nat) : Nat → BitVec 8 := fun k =>
  if k < n then BitVec.ofNat 8 (code / 256 ^ (n - 1 - k)) else 0

def codeOf (input : Nat → BitVec 8) (n : Nat) : Nat :=
  (List.range n).foldl (fun code k => 256 * code + (input k).toNat) 0

/-! ## Formulas -/

/-- Adds the expressions of the segments' bytes to those before them.
An input byte is a variable. -/
def express (done : Array (BVExpr 8)) (used : Nat) : List Segment → Array (BVExpr 8)
  | [] => done
  | .input n :: rest =>
    express (done ++ (List.range n).map fun k => (BVExpr.var (used + k) : BVExpr 8)) (used + n) rest
  | .derived n t :: rest =>
    let e := t.circuit fun i => done.getD i (.const 0)
    express (done ++ (List.range n).map fun j => BVExpr.extract (8 * j) 8 e) used rest

def expressions (s : Store) : Nat → BVExpr 8 :=
  let es := express #[] 0 s.segments
  fun i => es.getD i (.const 0)

/-- The segments, each with the number of its first byte. -/
def placed (start : Nat) : List Segment → List (Nat × Segment)
  | [] => []
  | b :: rest => (start, b) :: placed (start + b.size) rest

/-- Facts about the derived bytes that the bytes `needed` depend on. -/
def factsOn (s : Store) (needed : List Nat) : List (BVExpr 1) :=
  ((placed 0 s.segments).foldr (fun (start, b) (needed, facts) =>
    match b with
    | .derived n t =>
      if needed.any fun i => start ≤ i && i < start + n then
        (t.symbols ++ needed, t.facts s.expressions ++ facts)
      else (needed, facts)
    | .input _ => (needed, facts)) (needed, [])).2

def formula (s : Store) (extra : List Condition) : BVLogicalExpr :=
  let c := Term.all (s.path ++ extra)
  Sat.withFacts (s.factsOn c.symbols) (Sat.isOne (c.circuit s.expressions))

/-- The bits of the inputs, in the order in which inputs are compared. -/
def inputBits (s : Store) : List BVBit :=
  (List.range s.inputCount).flatMap fun k => Sat.bitsOf k 8

/-- The least code of an input that satisfies the path and further conditions, by trial. -/
def leastCodeByTrial (s : Store) (extra : List Condition) : Option Nat :=
  Sat.leastBelow (fun code => s.accepts extra (spelled s.inputCount code)) (256 ^ s.inputCount)

/-! ## Feasibility -/

def feasible (s : Store) (extra : List Condition) : Bool :=
  s.accepts extra (fun _ => 0) ||
    match Sat.solve (s.formula extra) [] with
    | .refuted => false
    | .model bits =>
      s.accepts extra (fun k => Sat.wordOf bits k 8) || (s.leastCodeByTrial extra).isSome
    | .undecided => (s.leastCodeByTrial extra).isSome

/-! ## The least input -/

def inputCells (s : Store) : List Cell :=
  (s.segments.foldl (fun (start, cells) b =>
    (start + b.size, if b.isInput then cells ++ cellsFrom start b.size else cells)) (0, [])).2

/-- The condition that the inputs spell a number below `code`. The first input is highest, so the
cells of the number, low byte first, are the inputs backwards. -/
def below (s : Store) (code : Nat) : Condition :=
  let n := s.inputCount
  Term.less false (.word (8 * n) s.inputCells.reverse) (.const (BitVec.ofNat (8 * n) code))

def leastCode? (s : Store) : Option Nat :=
  if s.accepts [] fun _ => 0 then some 0
  else
    match Sat.solve (s.formula []) s.inputBits with
    | .refuted => none
    | .model bits =>
      let code := codeOf (fun k => Sat.wordOf bits k 8) s.inputCount
      if s.accepts [] (spelled s.inputCount code) && !s.feasible [s.below code] then some code
      else s.leastCodeByTrial []
    | .undecided => s.leastCodeByTrial []

/-- The first `length` bytes of the least input; zeros stand for those past the last one. A negative
length leaves bytes out at the end. -/
def assignment (s : Store) (length : Int) : Except EvalError (List (BitVec 8)) :=
  if length = 0 then .ok []
  else
    match s.leastCode? with
    | none => .error .unsatisfiable
    | some code =>
      let n := s.inputCount
      let all := (List.range n).map (spelled n code)
      let kept := Section.slice all 0 length
      .ok (kept ++ List.replicate (length - kept.length).toNat 0)

/-! ## The least value of a term -/

/-- The least value of a term on the inputs that satisfy the path, by trial. -/
def leastValueByTrial (s : Store) {w : Nat} (t : Term w) : Option Nat :=
  Sat.leastBelow (fun n => s.feasible [Term.equal t (.const (BitVec.ofNat w n))]) (2 ^ w)

/-- The least value of a term on the inputs that satisfy the path, of which there must be one. -/
def leastValue (s : Store) {w : Nat} (t : Term w) : Nat :=
  let n := s.inputCount
  let named : BVLogicalExpr := .literal (.bin (t.circuit s.expressions) .eq (.var n))
  let all := Sat.withFacts (s.factsOn t.symbols) (.gate .and named (s.formula []))
  match Sat.solve all (Sat.bitsOf n w) with
  | .model bits =>
    let input := fun k => Sat.wordOf bits k 8
    let value := t.eval (s.valuation input)
    if s.accepts [] input && !s.feasible [Term.less false t (.const value)] then value.toNat
    else (s.leastValueByTrial t).getD 0
  | _ => (s.leastValueByTrial t).getD 0

end SymExec.Store

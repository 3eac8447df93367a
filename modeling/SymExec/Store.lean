import SymExec.Term
import SymExec.Section

/-!
# The constraint store

The store knows every symbolic byte. Input bytes are free; derived bytes are the result of an
operation and are given by a term over the bytes before them. Beside them stand the conditions of
the branches taken, which only ever grow in number.

Since a derived byte depends on earlier bytes alone, the input bytes determine all others.
-/
namespace SymExec

-- sums start from the zero of core, also where others are in scope
attribute [local instance(2000)] Zero.ofOfNat0

/-- Symbolic bytes that were made together. -/
inductive Segment where
  | input (size : Nat)
  /-- The bytes of a word, low byte first. -/
  | derived (size : Nat) (term : Term (8 * size))

def Segment.size : Segment → Nat
  | input n => n
  | derived n _ => n

def Segment.isInput : Segment → Bool
  | input _ => true
  | derived _ _ => false

/-- Symbolic bytes, numbered in the order of the segments, and the conditions of the path. -/
structure Store where
  segments : List Segment := []
  path : List Condition := []

namespace Store

def size (s : Store) : Nat := (s.segments.map Segment.size).sum

def inputCount (s : Store) : Nat := ((s.segments.filter Segment.isInput).map Segment.size).sum

def derivedCount (s : Store) : Nat := (s.segments.filter fun b => !b.isInput).length

def bytes (n : Nat) (word : BitVec (8 * n)) : List (BitVec 8) :=
  (List.range n).map fun j => word.extractLsb' (8 * j) 8

/-! ## Valuations -/

/-- Adds the values of the segments to those of the bytes before them; `used` inputs are taken. -/
def fill (input : Nat → BitVec 8) (done : Array (BitVec 8)) (used : Nat) :
    List Segment → Array (BitVec 8)
  | [] => done
  | .input n :: rest =>
    fill input (done ++ (List.range n).map fun k => input (used + k)) (used + n) rest
  | .derived n t :: rest =>
    fill input (done ++ bytes n (t.eval fun i => done.getD i 0)) used rest

/-- The value of every symbolic byte, given those of the inputs in their order. -/
def valuation (s : Store) (input : Nat → BitVec 8) : Valuation :=
  let values := fill input #[] 0 s.segments
  fun i => values.getD i 0

def accepts (s : Store) (extra : List Condition) (input : Nat → BitVec 8) : Bool :=
  let v := s.valuation input
  (s.path ++ extra).all fun c => c.holds v

/-! ## Growth -/

def cellsFrom (start n : Nat) : List Cell := (List.range n).map fun j => .symbol (start + j)

def addInput (n : Nat) (s : Store) : List Cell × Store :=
  (cellsFrom s.size n, { s with segments := s.segments ++ [.input n] })

/-- New bytes that stand for a term. -/
def addDerived (n : Nat) (t : Term (8 * n)) (s : Store) : List Cell × Store :=
  (cellsFrom s.size n, { s with segments := s.segments ++ [.derived n t] })

def push (c : Condition) (s : Store) : Store := { s with path := s.path ++ [c] }

end Store
end SymExec

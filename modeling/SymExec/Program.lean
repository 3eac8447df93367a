import SymExec.Section
import SymExec.Ty

/-!
# Programs

A program is a list of functions. A function has typed locals (local 0 is the return place, the
parameters come next) and basic blocks: statements followed by one terminator.
-/
namespace SymExec

/-- A step from a place to a part of it. -/
inductive Projection where
  | deref
  | field (index : Int)
  | constIndex (index : Int)
  /-- Index by the number that a local holds. -/
  | index (base : Int)
  deriving DecidableEq, Repr

/-- A local and a path into it. -/
structure Place where
  base : Int
  projections : List Projection := []
  deriving DecidableEq, Repr

def Projection.text (inner : String) : Projection → String
  | deref => s!"(*{inner})"
  | field i => s!"{inner}.{i}"
  | constIndex i => s!"{inner}[{i}]"
  | index b => s!"{inner}[_{b}]"

def Place.text (p : Place) : String :=
  p.projections.foldl Projection.text s!"_{p.base}"

inductive Operand where
  | copy (place : Place)
  | constant (value : Json) (ty : Ty)
  deriving Repr

inductive Rvalue where
  | use (operand : Operand)
  | binary (op : BinOp) (lhs rhs : Operand)
  /-- The result and whether it overflowed, as a pair. -/
  | checked (op : BinOp) (lhs rhs : Operand)
  | unary (op : UnOp) (operand : Operand)
  | cast (operand : Operand) (ty : Ty)
  | ref (place : Place) (mutable : Bool)
  | len (place : Place)
  deriving Repr

inductive Statement where
  | assign (place : Place) (rvalue : Rvalue)
  | nop
  deriving Repr

/-- A call of a function, a builtin or an intrinsic. Without a target it does not return. -/
structure Call where
  callee : Json
  args : List Operand
  dest : Option Place
  target : Option Int
  typeArgs : List Ty
  deriving Repr

inductive Terminator where
  | goto (target : Int)
  /-- Goes to the target of the first value that the operand has. -/
  | switch (discr : Operand) (values targets : List Int) (otherwise : Int)
  | assert (cond : Operand) (expected : Bool) (target : Int) (message : Json)
  | call (call : Call)
  | ret
  | abort
  | unreachable
  deriving Repr

/-- Statements and how control goes on after them. -/
structure Block where
  statements : List Statement
  terminator : Terminator
  deriving Repr

/-- A function. Local 0 is its result, the parameters follow. -/
structure Function where
  name : Json
  locals : List Ty
  argCount : Int
  blocks : List Block
  deriving Repr

namespace Function

def returnTy (f : Function) : Ty := f.locals.headD .unit

def paramTypes (f : Function) : List Ty := Section.slice f.locals 1 (f.argCount + 1)

end Function

/-- Functions in the order of their first definition. -/
structure Program where
  functions : List Function
  deriving Repr

namespace Program

/-- Adds a function. One of the same name is replaced where it stands. -/
def add (p : Program) (f : Function) : Program :=
  if p.functions.any fun g => g.name.sameName f.name then
    ⟨p.functions.map fun g => if g.name.sameName f.name then f else g⟩
  else ⟨p.functions ++ [f]⟩

def find? (p : Program) (name : Json) : Option Function :=
  p.functions.find? fun f => f.name.sameName name

end Program

inductive Builtin where
  | panic | alloc | dealloc | makeSymbolic
  deriving DecidableEq, Repr

namespace Builtin

def name : Builtin → String
  | panic => "panic"
  | alloc => "alloc"
  | dealloc => "dealloc"
  | makeSymbolic => "mksym"

/-- The number of arguments; a panic takes any. -/
def arity? : Builtin → Option Nat
  | panic => none
  | alloc => some 2
  | dealloc => some 2
  | makeSymbolic => some 1

def ofName? (callee : Json) : Option Builtin :=
  match callee with
  | .str s => [panic, alloc, dealloc, makeSymbolic].find? fun b => b.name == s
  | _ => none

end Builtin
end SymExec

import SymExec.Machine.Step

/-!
# Plain programs

What the loader accepts may still hold a value that no rule of the machine covers: a constant whose text
is no numeral, a field that is counted from the last one, a type whose name is no text. An instruction is
plain if it holds nothing of the kind. Two intrinsics are not plain, because whether they can be carried
out depends on the values of their arguments: one has no result for some of them, and one makes as many
cells as it is told to.
-/
namespace SymExec

open Run

/-- Whether a value can be read as a constant of a type, or is refused with an error. -/
def Json.readsAs (value : Json) (ty : Ty) : Bool :=
  match ty.pointee?, value with
  | some .str, .str s => (Text.encode s).toOption.any fun bytes => Text.isPrintableInt bytes.length
  | _, _ =>
    match ty, value with
    | .char, .str s => s.toList.length = 1
    | .char, value => value.toInt.isOk
    | .int _ _ _, value => value.toInt.isOk
    | .f32, value => value.toDouble.isOk
    | .f64, value => value.toDouble.isOk
    | _, _ => true

/-- Whether the values of a type are no pointers with a length. -/
def Ty.isThin (t : Ty) : Bool :=
  match t.isFat with
  | .ok fat => !fat
  | .error _ => true

/-- Whether the name of a type is text that has bytes. -/
def Ty.isNamed (t : Ty) : Bool :=
  t.nameBytes.toOption.any fun bytes => Text.isPrintableInt bytes.length

def Projection.isPlain : Projection → Bool
  | field i => 0 ≤ i && Text.isPrintableInt i
  | constIndex i => Text.isPrintableInt i
  | _ => true

def Place.isPlain (p : Place) : Bool := p.projections.all Projection.isPlain

namespace Operand

def isPlain : Operand → Bool
  | copy place => place.isPlain
  | constant value ty => value.readsAs ty

/-- Whether an operand is no number that stands for a pointer with a length. -/
def isWhole : Operand → Bool
  | constant (.int _) (.rawPtr pointee m) | constant (.bool _) (.rawPtr pointee m) =>
    (Ty.rawPtr pointee m).isThin
  | _ => true

end Operand

def Rvalue.isPlain : Rvalue → Bool
  | use operand => operand.isPlain
  | binary _ lhs rhs => lhs.isPlain && rhs.isPlain
  | checked _ lhs rhs => lhs.isPlain && rhs.isPlain
  | unary _ operand => operand.isPlain
  | cast operand _ => operand.isPlain && operand.isWhole
  | ref place _ => place.isPlain
  | len place => place.isPlain

def Statement.isPlain : Statement → Bool
  | assign place rvalue => place.isPlain && rvalue.isPlain
  | nop => true

/-- Whether an intrinsic can be carried out with any arguments, given the types it is called with. -/
def Intrinsic.isPlain (typeArgs : List Ty) : Intrinsic → Bool
  | floatMath fn _ => fn != .fma
  | writeBytes => false
  | typeName => typeArgs.head?.all Ty.isNamed
  | typeId => typeArgs.head?.all Ty.isNamed
  | _ => true

namespace Call

/-- Whether what a call carries out is plain, unless it is a function of the program. -/
def calleeIsPlain (c : Call) : Bool :=
  match c.callee with
  | .str name =>
    match Intrinsic.ofName? name with
    | some i => i.isPlain c.typeArgs
    | none => true
  | _ => true

def isPlain (p : Program) (c : Call) : Bool :=
  c.args.all Operand.isPlain && c.dest.all Place.isPlain &&
    ((p.find? c.callee).isSome || c.calleeIsPlain)

end Call

def Terminator.isPlain (p : Program) : Terminator → Bool
  | switch discr _ _ _ => discr.isPlain
  | assert cond _ _ _ => cond.isPlain
  | call c => c.isPlain p
  | _ => true

def Block.isPlain (p : Program) (b : Block) : Bool :=
  b.statements.all Statement.isPlain && b.terminator.isPlain p

def Program.isPlain (p : Program) : Bool :=
  p.functions.all fun f => f.blocks.all (Block.isPlain p)

def Frame.isPlain (p : Program) (f : Frame) : Bool :=
  match Machine.blockOf f with
  | .ok b =>
    match b.statements[f.stmt]? with
    | some s => s.isPlain
    | none => b.terminator.isPlain p
  | .error _ => true

def Machine.isPlain (m : Machine) : Bool := m.stack.head?.all (Frame.isPlain m.program)

end SymExec

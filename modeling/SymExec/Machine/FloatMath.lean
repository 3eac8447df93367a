import SymExec.Binary.Elementary
import SymExec.Intrinsic
import SymExec.Scalar

/-!
# Functions on floating-point numbers

Arguments are widened to double precision and the result is rounded back. A fused multiplication and
addition is rounded once, to the format of its arguments.
-/
namespace SymExec.FloatFn

open Binary

/-- A function of one number, in double precision. -/
def ofOne (fn : FloatFn) (x : Nat) : Nat :=
  match fn with
  | sin => Double.sin x
  | cos => Double.cos x
  | fabs => double.magnitude x
  | sqrt => double.sqrt x
  | exp => Double.exp x
  | exp2 => Double.exp2 x
  | log => Double.log .natural x
  | log10 => Double.log .ten x
  | log2 => Double.log .two x
  | floor => double.toIntegral .down x
  | ceil => double.toIntegral .up x
  | _ => double.toIntegral .zero x

def formatOf (kind : Kind) : Format := if kind = .f32 then single else double

/-- A fused multiplication and addition. There is no result if it is an invalid operation. -/
def fused (kind : Kind) (x y z : BitVec 128) : Except Failure Scalar :=
  let cut := fun (p : BitVec 128) => (p.setWidth kind.bits).toNat
  match (formatOf kind).fusedMulAdd? (cut x) (cut y) (cut z) with
  | some pattern => .ok (.ofNat pattern)
  | none => .error .crash

def apply (fn : FloatFn) (kind : Kind) (args : List Scalar) : Except Failure Scalar :=
  match fn, args with
  | fma, [x, y, z] => do fused kind (← x.toPattern) (← y.toPattern) (← z.toPattern)
  | pow, [x, y] => do
    return .ofDouble (Double.pow (← x.toDouble kind) (← y.toDouble kind)) kind
  | powi, [x, n] => do
    let x ← x.toDouble kind
    return .ofDouble (Double.pow x (double.ofInt (← n.toI128))) kind
  | fn, x :: _ => do return .ofDouble (ofOne fn (← x.toDouble kind)) kind
  | _, [] => .error .crash

end SymExec.FloatFn

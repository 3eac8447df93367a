import SymExec.Digest
import SymExec.Text.Utf8
import SymExec.Ty

/-!
# The identity of a type

Types are told apart at run time by a 64-bit number that depends on the name alone.
-/
namespace SymExec.Ty

/-- The bytes of a name in UTF-8. There are none if it is not text. -/
def nameBytes (t : Ty) : Except Failure (List UInt8) :=
  match t.fault?, t.isTextual with
  | some fault, _ => .error fault.failure
  | none, false => .error .crash
  | none, true => (Text.encode t.text).mapError .numeral

/-- The first eight bytes of the digest of the name, the first one lowest. -/
def identity (t : Ty) : Except Failure Nat := do
  return ((Digest.sha256 (← t.nameBytes)).take 8).foldr (fun b n => b.toNat + 256 * n) 0

end SymExec.Ty

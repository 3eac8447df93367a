import SymExec.Error

/-!
# Numbers from JSON values

Where a number is wanted, truth values count as zero and one, and text is read as a numeral.
-/
namespace SymExec.Json

/-- The integer of a value; a fraction is cut off. -/
def toInt : Json → Except Failure Int
  | bool b => .ok (if b then 1 else 0)
  | int n => .ok n
  | float p =>
    match Binary.double.truncate? p.toNat with
    | some n => .ok n
    | none => .error (if Binary.double.isNaN p.toNat then .numeral .nan else .crash)
  | str s => (Text.integer s).mapError .numeral
  | _ => .error .crash

/-- The number of a value in double precision. An integer out of range has none. -/
def toDouble : Json → Except Failure Nat
  | bool b => .ok (Binary.double.ofInt (if b then 1 else 0))
  | int n =>
    let pattern := Binary.double.ofInt n
    if Binary.double.magnitude pattern = Binary.double.infinity then .error .crash else .ok pattern
  | float p => .ok p.toNat
  | str s => (Text.number s).mapError .numeral
  | _ => .error .crash

end SymExec.Json

/-!
# Sections of lists

Bounds of a section are integers. A negative bound counts from the end of the list, and bounds
outside the list are moved to its ends.
-/
namespace SymExec.Section

/-- A bound as a position of a list of the given length. -/
def resolve (length : Nat) (bound : Int) : Nat :=
  if bound < 0 then (bound + length).toNat else min bound.toNat length

/-- The items from one bound up to another. -/
def slice {α : Type} (xs : List α) (start stop : Int) : List α :=
  let s := resolve xs.length start
  (xs.drop s).take (resolve xs.length stop - s)

/-- Puts items in the place of those from one bound up to another. -/
def splice {α : Type} (xs : List α) (start stop : Int) (items : List α) : List α :=
  let s := resolve xs.length start
  let e := max s (resolve xs.length stop)
  xs.take s ++ items ++ xs.drop e

/-- The item at an index that counts from the end if it is negative. -/
def item? {α : Type} (xs : List α) (index : Int) : Option α :=
  if 0 ≤ index then xs[index.toNat]?
  else if 0 ≤ index + xs.length then xs[(index + xs.length).toNat]?
  else none

end SymExec.Section

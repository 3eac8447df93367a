/-!
# Byte cells

Memory and symbolic values are made of byte cells. A cell is a known byte or names a symbolic byte,
a variable that stands for any of the 256 values.
-/
namespace SymExec

/-- One byte: known, or the symbolic byte of the given index. -/
inductive Cell where
  | known (byte : BitVec 8)
  | symbol (index : Nat)
  deriving DecidableEq, Repr, Inhabited

/-- A value for every symbolic byte. -/
abbrev Valuation := Nat → BitVec 8

namespace Cell

def eval (v : Valuation) : Cell → BitVec 8
  | known b => b
  | symbol i => v i

def symbol? : Cell → Option Nat
  | known _ => none
  | symbol i => some i

def known? : Cell → Option (BitVec 8)
  | known b => some b
  | symbol _ => none

/-- The number that cells spell under a valuation, low byte first. -/
def valueOf (v : Valuation) : List Cell → Nat
  | [] => 0
  | c :: cs => (c.eval v).toNat + 256 * valueOf v cs

/-- The low `n` bytes of a number, low byte first. -/
def ofNat (value : Nat) : (n : Nat) → List Cell
  | 0 => []
  | n + 1 => known (BitVec.ofNat 8 value) :: ofNat (value / 256) n

def symbols (cells : List Cell) : List Nat := cells.filterMap symbol?

end Cell
end SymExec

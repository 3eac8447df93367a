/-!
# Binary floating-point formats

A number of a binary interchange format is held as its bit pattern. All arithmetic goes through
exact rationals: a pattern is decoded to an integer times a power of two, the exact result is
computed, and `Format.round` picks the nearest number of the format, a tie going to the even one.
-/
namespace SymExec.Binary

-- powers are those of core, also where others are in scope
attribute [local instance(2000)] instPowNat

/-- A binary interchange format. -/
structure Format where
  width : Nat
  /-- The number of significant bits, the leading one included. -/
  precision : Nat
  /-- The smallest positive number is two to this power. -/
  minExp : Int
  deriving DecidableEq, Repr

def single : Format := ⟨32, 24, -149⟩
def double : Format := ⟨64, 53, -1074⟩

/-- What a pattern stands for. A finite number is `mant * 2 ^ exp`, with a sign. -/
inductive Number where
  | finite (negative : Bool) (mant : Nat) (exp : Int)
  | infinite (negative : Bool)
  | nan
  deriving DecidableEq, Repr

/-- The integer nearest to `num / den`; halfway between two it is the even one. -/
def nearestEven (num den : Nat) : Nat :=
  let q := num / den
  let r := num % den
  if 2 * r < den ∨ (2 * r = den ∧ q % 2 = 0) then q else q + 1

namespace Format

def infinity (f : Format) : Nat := (2 ^ (f.width - f.precision) - 1) * 2 ^ (f.precision - 1)

/-- The quiet bit, the highest one of the fraction. -/
def quietBit (f : Format) : Nat := 2 ^ (f.precision - 2)

/-- The pattern that stands for "not a number" as a result. -/
def defaultNaN (f : Format) : Nat := f.infinity + f.quietBit

def withSign (f : Format) (negative : Bool) (magnitude : Nat) : Nat :=
  if negative then magnitude + 2 ^ (f.width - 1) else magnitude

def isNegative (f : Format) (pattern : Nat) : Bool := pattern / 2 ^ (f.width - 1) % 2 == 1

def magnitude (f : Format) (pattern : Nat) : Nat := pattern % 2 ^ (f.width - 1)

def isNaN (f : Format) (pattern : Nat) : Bool := f.infinity < f.magnitude pattern

def decode (f : Format) (pattern : Nat) : Number :=
  let m := f.magnitude pattern
  let negative := f.isNegative pattern
  let field := m / 2 ^ (f.precision - 1)
  let fraction := m % 2 ^ (f.precision - 1)
  if f.infinity < m then .nan
  else if m = f.infinity then .infinite negative
  else if field = 0 then .finite negative fraction f.minExp
  else .finite negative (fraction + 2 ^ (f.precision - 1)) (f.minExp + field - 1)

/-- The exponent of the leading bit of the positive rational `num / den`. -/
def leadingExp (num den : Nat) : Int :=
  let e : Int := (num.log2 : Int) - den.log2
  let fits := if 0 ≤ e then den * 2 ^ e.toNat ≤ num else den ≤ num * 2 ^ (-e).toNat
  if fits then e else e - 1

/-- The exponent of the last place of the number nearest to `num / den`. -/
def lastPlace (f : Format) (num den : Nat) : Int :=
  max f.minExp (leadingExp num den - (f.precision - 1))

/-- The magnitude pattern of the number nearest to `num / den`: consecutive patterns are
consecutive numbers, so counting last places above the smallest number gives the pattern. -/
def round (f : Format) (num den : Nat) : Nat :=
  if num = 0 then 0
  else
    let k := f.lastPlace num den
    let units :=
      if 0 ≤ k then nearestEven num (den * 2 ^ k.toNat) else nearestEven (num * 2 ^ (-k).toNat) den
    min ((k - f.minExp).toNat * 2 ^ (f.precision - 1) + units) f.infinity

/-- The pattern of the number nearest to `± mant * 2 ^ exp`. -/
def ofScaled (f : Format) (negative : Bool) (mant : Nat) (exp : Int) : Nat :=
  f.withSign negative
    (if 0 ≤ exp then f.round (mant * 2 ^ exp.toNat) 1 else f.round mant (2 ^ (-exp).toNat))

/-- The pattern of the number nearest to an integer; zero is positive. -/
def ofInt (f : Format) (n : Int) : Nat := f.withSign (n < 0) (f.round n.natAbs 1)

end Format
end SymExec.Binary

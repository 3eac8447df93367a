import SymExec.Binary.Format

/-!
# Arithmetic on binary floating-point numbers

Operations on patterns of one format. An operand that is not a number is passed on, made quiet; the
first one wins. An invalid operation gives the format's own quiet pattern.
-/
namespace SymExec.Binary.Format

attribute [local instance(2000)] instPowNat

/-- A pattern that is not a number, made quiet. -/
def quiet (f : Format) (x : Nat) : Nat :=
  if x / f.quietBit % 2 = 1 then x else x + f.quietBit

def convert (f g : Format) (x : Nat) : Nat :=
  match f.decode x with
  | .finite s m e => g.ofScaled s m e
  | .infinite s => g.withSign s g.infinity
  | .nan =>
    let fraction := f.magnitude x % 2 ^ (f.precision - 1)
    let kept := if f.precision ≤ g.precision
      then fraction * 2 ^ (g.precision - f.precision)
      else fraction / 2 ^ (f.precision - g.precision)
    g.withSign (f.isNegative x) (g.quiet (g.infinity + kept))

def signedMant (negative : Bool) (mant : Nat) : Int := if negative then -(mant : Int) else mant

/-- The pattern nearest to `n * 2 ^ exp`; a zero has the sign `zero`. -/
def ofSum (f : Format) (n : Int) (exp : Int) (zero : Bool) : Nat :=
  if n = 0 then f.withSign zero 0 else f.ofScaled (n < 0) n.natAbs exp

def exactSum (n : Int) (e : Int) (m : Int) (d : Int) : Int × Int :=
  let low := min e d
  (n * 2 ^ (e - low).toNat + m * 2 ^ (d - low).toNat, low)

def negate (f : Format) (x : Nat) : Nat :=
  f.withSign (!f.isNegative x) (f.magnitude x)

def add (f : Format) (x y : Nat) : Nat :=
  if f.isNaN x then f.quiet x
  else if f.isNaN y then f.quiet y
  else
    match f.decode x, f.decode y with
    | .finite s m e, .finite t n d =>
      let (sum, low) := exactSum (signedMant s m) e (signedMant t n) d
      f.ofSum sum low (s && t)
    | .infinite s, .infinite t => if s = t then f.withSign s f.infinity else f.defaultNaN
    | .infinite s, _ => f.withSign s f.infinity
    | _, .infinite t => f.withSign t f.infinity
    | _, _ => f.defaultNaN

def sub (f : Format) (x y : Nat) : Nat :=
  if f.isNaN y then (if f.isNaN x then f.quiet x else f.quiet y) else f.add x (f.negate y)

def mul (f : Format) (x y : Nat) : Nat :=
  if f.isNaN x then f.quiet x
  else if f.isNaN y then f.quiet y
  else
    match f.decode x, f.decode y with
    | .finite s m e, .finite t n d => f.ofScaled (s != t) (m * n) (e + d)
    | .infinite s, .finite t n _ => if n = 0 then f.defaultNaN else f.withSign (s != t) f.infinity
    | .finite s m _, .infinite t => if m = 0 then f.defaultNaN else f.withSign (s != t) f.infinity
    | .infinite s, .infinite t => f.withSign (s != t) f.infinity
    | _, _ => f.defaultNaN

/-- Division. A number by zero is infinite, with the sign of the quotient; zero by zero and a
dividend that is not a number by zero give the default pattern. -/
def div (f : Format) (x y : Nat) : Nat :=
  match f.decode x, f.decode y with
  | .nan, .finite _ 0 _ => f.defaultNaN
  | .nan, _ => f.quiet x
  | _, .nan => f.quiet y
  | .finite s m e, .finite t n d =>
    if n = 0 then (if m = 0 then f.defaultNaN else f.withSign (s != t) f.infinity)
    else
      let up := (e - d).toNat
      let down := (d - e).toNat
      f.withSign (s != t) (f.round (m * 2 ^ up) (n * 2 ^ down))
  | .infinite s, .finite t _ _ => f.withSign (s != t) f.infinity
  | .finite s _ _, .infinite t => f.withSign (s != t) 0
  | .infinite _, .infinite _ => f.defaultNaN

/-- The remainder of the division that rounds toward zero. It has the sign of the dividend. -/
def rem (f : Format) (x y : Nat) : Nat :=
  match f.decode x, f.decode y with
  | _, .finite _ 0 _ => f.defaultNaN
  | .infinite _, _ => f.defaultNaN
  | .nan, _ => f.quiet x
  | _, .nan => f.quiet y
  | .finite _ _ _, .infinite _ => x
  | .finite s m e, .finite _ n d =>
    let low := min e d
    f.ofScaled s ((m * 2 ^ (e - low).toNat) % (n * 2 ^ (d - low).toNat)) low

/-- `x * y + z`, rounded once. There is no result if the operation is invalid. -/
def fusedMulAdd? (f : Format) (x y z : Nat) : Option Nat :=
  match f.decode x, f.decode y, f.decode z with
  | .nan, _, _ | _, .nan, _ | _, _, .nan => some f.defaultNaN
  | .finite s m e, .finite t n d, .finite u k c =>
    let (sum, low) := exactSum (signedMant (s != t) (m * n)) (e + d) (signedMant u k) c
    some (f.ofSum sum low ((s != t) && u))
  | .finite _ _ _, .finite _ _ _, .infinite u => some (f.withSign u f.infinity)
  | .infinite s, .finite t n _, z => if n = 0 then none else addend (s != t) z
  | .finite s m _, .infinite t, z => if m = 0 then none else addend (s != t) z
  | .infinite s, .infinite t, z => addend (s != t) z
where
  /-- An infinite product plus a number. -/
  addend (negative : Bool) : Number → Option Nat
    | .infinite u => if u = negative then some (f.withSign u f.infinity) else none
    | _ => some (f.withSign negative f.infinity)

/-! ## Order -/

/-- The order of two patterns; there is none if one is not a number. Both zeros are equal. -/
def compare? (f : Format) (x y : Nat) : Option Ordering :=
  if f.isNaN x || f.isNaN y then none
  else
    let key := fun p =>
      if f.isNegative p then -(f.magnitude p : Int) else (f.magnitude p : Int)
    some (compare (key x) (key y))

def isZero (f : Format) (x : Nat) : Bool := f.magnitude x == 0

/-! ## Integers -/

/-- The integer part of a finite number. -/
def truncate? (f : Format) (x : Nat) : Option Int :=
  match f.decode x with
  | .finite s m e =>
    let n := if 0 ≤ e then m * 2 ^ e.toNat else m / 2 ^ (-e).toNat
    some (signedMant s n)
  | _ => none

inductive Direction where
  | down | up | zero
  deriving DecidableEq, Repr

/-- The nearest integer in a direction, as a number with the sign of `x`. -/
def toIntegral (f : Format) (dir : Direction) (x : Nat) : Nat :=
  match f.decode x with
  | .finite s m e =>
    if 0 ≤ e then x
    else
      let q := m / 2 ^ (-e).toNat
      let exact := m % 2 ^ (-e).toNat == 0
      let away := match dir with
        | .zero => false
        | .down => s
        | .up => !s
      f.withSign s (f.round (if away && !exact then q + 1 else q) 1)
  | _ => x

/-! ## Square root -/

def sqrtFrom (n : Nat) (guess : Nat) : (fuel : Nat) → Nat
  | 0 => guess
  | fuel + 1 =>
    let next := (guess + n / guess) / 2
    if next < guess then sqrtFrom n next fuel else guess

def sqrtFloor (n : Nat) : Nat :=
  if n = 0 then 0 else sqrtFrom n (2 ^ (n.log2 / 2 + 1)) (n.log2 + 2)

/-- The square root; a negative number has none. -/
def sqrt (f : Format) (x : Nat) : Nat :=
  match f.decode x with
  | .nan => f.quiet x
  | .infinite s => if s then f.defaultNaN else x
  | .finite s m e =>
    if m = 0 then x
    else if s then f.defaultNaN
    else
      -- an even exponent, and enough bits that one more tells on which side of a tie the root is
      let odd := (e % 2).toNat
      let m := m * 2 ^ odd
      let half := (e - odd) / 2
      let extra := f.precision + 4
      let n := m * 2 ^ (2 * extra)
      let r := sqrtFloor n
      let sticky := if r * r = n then 0 else 1
      f.ofScaled false (2 * r + sticky) (half - extra - 1)

end SymExec.Binary.Format

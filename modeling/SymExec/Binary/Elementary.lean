import SymExec.Binary.Arith

/-!
# Elementary functions, correctly rounded

A function is first computed as an integer multiple of a small power of two, with an error that is
known to stay below `slack` units. If both ends of the error interval round to the same number, that
number is the correctly rounded result; else the computation is repeated with more bits. Only a
result that is itself a number of the format, or halfway between two, needs more bits each time;
after the last attempt it is taken to be the number of 64 bits that is nearest.

`n : Int` at precision `p` stands for `n / 2 ^ p`.
-/
namespace SymExec.Binary

attribute [local instance(2000)] instPowNat

/-! ## Fixed-point series -/

namespace Fixed

def mul (p : Nat) (x y : Int) : Int := x * y / 2 ^ p

/-- `power / k - power * s / (k + 2) + ...`, where `s` is a square: the tail of the series of the
inverse tangent (`sign = -1`) or of its hyperbolic kin (`sign = 1`). -/
def inverseTail (p : Nat) (sign square power : Int) (k : Nat) (acc : Int) : (fuel : Nat) → Int
  | 0 => acc
  | fuel + 1 =>
    if power = 0 then acc
    else
      inverseTail p sign square (sign * mul p power square) (k + 2) (acc + power / (k : Int)) fuel

/-- The inverse hyperbolic tangent of `z`, for `|z| ≤ 1 / 3`. -/
def atanh (p : Nat) (z : Int) : Int := inverseTail p 1 (mul p z z) z 1 0 p

/-- The inverse tangent of `z`, for `|z| ≤ 1 / 3`. -/
def atan (p : Nat) (z : Int) : Int := inverseTail p (-1) (mul p z z) z 1 0 p

def pi (p : Nat) : Int := 16 * atan p (2 ^ p / 5) - 4 * atan p (2 ^ p / 239)

def ln2 (p : Nat) : Int := 2 * atanh p (2 ^ p / 3)

def ln10 (p : Nat) : Int := 3 * ln2 p + 2 * atanh p (2 ^ p / 9)

/-- The sum `term + term * x / (k + 1) + ...` of the exponential series. -/
def expTail (p : Nat) (x term : Int) (k : Nat) (acc : Int) : (fuel : Nat) → Int
  | 0 => acc
  | fuel + 1 =>
    if term = 0 ∨ term = -1 then acc
    else expTail p x (mul p term x / ((k : Int) + 1)) (k + 1) (acc + term) fuel

def squares (p : Nat) (x : Int) : Nat → Int
  | 0 => x
  | n + 1 => squares p (mul p x x) n

/-- The exponential of `x`, for `|x| ≤ 1`. -/
def exp (p : Nat) (x : Int) : Int :=
  squares p (expTail p (x / 2 ^ (8 : Nat)) (2 ^ p) 0 0 p) 8

/-- The alternating series `term - term * s / ((k + 1) (k + 2)) + ...`. -/
def circularTail (p : Nat) (square term : Int) (k : Nat) (acc : Int) : (fuel : Nat) → Int
  | 0 => acc
  | fuel + 1 =>
    if term = 0 ∨ term = -1 then acc
    else
      circularTail p square (-(mul p term square / (((k : Int) + 1) * ((k : Int) + 2)))) (k + 2)
        (acc + term) fuel

/-- The sine of `x`, for `|x| ≤ 1`. -/
def sin (p : Nat) (x : Int) : Int := circularTail p (mul p x x) x 1 0 p

/-- The cosine of `x`, for `|x| ≤ 1`. -/
def cos (p : Nat) (x : Int) : Int := circularTail p (mul p x x) (2 ^ p) 0 0 p

def ofScaled (p : Nat) (n e : Int) : Int :=
  let shift := e + p
  if 0 ≤ shift then n * 2 ^ shift.toNat else n / 2 ^ (-shift).toNat

/-- The natural logarithm of the positive number `m * 2 ^ e`. -/
def log (p : Nat) (m : Nat) (e : Int) : Int :=
  let top := m.log2
  let one : Int := 2 ^ p
  let f := ofScaled p m (-(top : Int))
  -- above one and a half, count from the next power of two
  let (f, k) := if one + one / 2 < f then (f / 2, e + top + 1) else (f, e + top)
  k * ln2 p + 2 * atanh p ((f - one) * one / (f + one))

end Fixed

/-! ## Rounding -/

/-- The number `n * 2 ^ e`, where `n` is off by less than `slack`. -/
structure Approx where
  n : Int
  e : Int

/-- The bound on the error of an approximation, in units of its last place. -/
def slack : Int := 2 ^ (40 : Nat)

def precisions : List Nat := [160, 320, 640, 1280]

/-- The approximation with 64 significant bits. -/
def Approx.snap (a : Approx) : Approx :=
  let shift := a.n.natAbs.log2 - 63
  let n : Int := nearestEven a.n.natAbs (2 ^ shift)
  ⟨if a.n < 0 then -n else n, a.e + shift⟩

/-- The pattern of the number that ever better approximations close in on. -/
def Format.closeIn (f : Format) (approx : Nat → Approx) : Nat :=
  let settled := precisions.findSome? fun p =>
    let a := approx p
    let low := f.ofSum (a.n - slack) a.e false
    let high := f.ofSum (a.n + slack) a.e false
    if low = high then some low else none
  settled.getD <|
    let a := (approx 1280).snap
    f.ofSum a.n a.e false

/-! ## The functions, in double precision -/

namespace Double

/-- `e ^ x`, for `x = n / 2 ^ p`. -/
def expApprox (p : Nat) (x : Int) : Approx :=
  let ln2 := Fixed.ln2 p
  let k := (2 * x + ln2) / (2 * ln2)
  ⟨Fixed.exp p (x - k * ln2), k - p⟩

def exp (x : Nat) : Nat :=
  match double.decode x with
  | .nan => double.quiet x
  | .infinite s => if s then 0 else x
  | .finite s m e =>
    let whole := (double.truncate? x).getD 0
    if 800 < whole then double.infinity
    else if whole < -800 then 0
    else
      double.closeIn fun p =>
        expApprox (p + 16) (Fixed.ofScaled (p + 16) (Format.signedMant s m) e)

inductive Base where
  | natural | two | ten
  deriving DecidableEq, Repr

/-- The logarithm of `x`. There is none of a negative number; that of zero is infinite. -/
def log (base : Base) (x : Nat) : Nat :=
  match double.decode x with
  | .nan => double.defaultNaN
  | .infinite s => if s then double.defaultNaN else x
  | .finite s m e =>
    if m = 0 then double.withSign true double.infinity
    else if s then double.defaultNaN
    else if m = 2 ^ m.log2 ∧ m.log2 + e = 0 then 0
    else
      double.closeIn fun p =>
        let l := Fixed.log p m e
        match base with
        | .natural => ⟨l, -p⟩
        | .two => ⟨l * 2 ^ p / Fixed.ln2 p, -p⟩
        | .ten => ⟨l * 2 ^ p / Fixed.ln10 p, -p⟩

/-- The quarter turn that `x` lies in, counted around, and the rest. -/
def quarter (p : Nat) (mant e : Int) : Int × Int :=
  let wide := p + 64 + e.toNat + 64
  let half := Fixed.pi wide / 2
  let x := Fixed.ofScaled wide mant e
  let k := (2 * x + half) / (2 * half)
  (k % 4, (x - k * half) / 2 ^ (wide - p))

/-- The sine (`shift = 0`) or cosine (`shift = 1`), which is the sine a quarter turn ahead. -/
def circular (shift : Int) (s : Bool) (m : Nat) (e : Int) : Nat :=
  double.closeIn fun p =>
    let (k, r) := quarter p (Format.signedMant s m) e
    let k := (k + shift) % 4
    let value := if k % 2 = 0 then Fixed.sin p r else Fixed.cos p r
    ⟨if k < 2 then value else -value, -p⟩

/-- The sine. A number below `2 ^ -27` is its own sine, to the nearest. -/
def sin (x : Nat) : Nat :=
  match double.decode x with
  | .nan => double.quiet x
  | .infinite _ => double.defaultNaN
  | .finite s m e => if m = 0 ∨ e + m.log2 < -27 then x else circular 0 s m e

def cos (x : Nat) : Nat :=
  match double.decode x with
  | .nan => double.quiet x
  | .infinite _ => double.defaultNaN
  | .finite s m e => circular 1 s m e

/-! ## Powers -/

def isInteger (m : Nat) (e : Int) : Bool := 0 ≤ e || m % 2 ^ (-e).toNat == 0

def isOdd (m : Nat) (e : Int) : Bool :=
  if 0 ≤ e then e == 0 && m % 2 == 1
  else m % 2 ^ (-e).toNat == 0 && m / 2 ^ (-e).toNat % 2 == 1

/-- `(m * 2 ^ e) ^ n`, exactly computed and rounded once. -/
def powerOfInt (m : Nat) (e n : Int) : Nat :=
  let k := n.natAbs
  let up := (e * k).toNat
  let down := (-(e * k)).toNat
  if 0 ≤ n then double.round (m ^ k * 2 ^ up) (2 ^ down)
  else double.round (2 ^ down) (m ^ k * 2 ^ up)

/-- The magnitude of `(m * 2 ^ e) ^ y`, where `y = ± n * 2 ^ d`, both not zero. -/
def powMagnitude (m : Nat) (e : Int) (t : Bool) (n : Nat) (d : Int) : Nat :=
  let small := (double.truncate? (double.ofScaled t n d)).getD 0
  if isInteger n d && small.natAbs ≤ 64 && e + m.log2 < 200 && -200 < e + m.log2 then
    powerOfInt m e small
  else
    let one := m == 2 ^ m.log2 && e + m.log2 == 0
    let grows := (0 ≤ e + m.log2) != t
    if one then double.round 1 1
    else if 64 < d + n.log2 then (if grows then double.infinity else 0)
    else
      -- the exponent of two of the result is at most `y` times the one of the base
      let product := Fixed.mul 200 (Fixed.log 200 m e) (Fixed.ofScaled 200 n d)
      let rough := Fixed.ofScaled 0 product (-200)
      let rough := if t then -rough else rough
      if 800 < rough then double.infinity
      else if rough < -800 then 0
      else
        double.closeIn fun p =>
          let q := p + 96
          let l := Fixed.log q m e * Format.signedMant t n
          expApprox (p + 16) (Fixed.ofScaled (p + 16) l (d - q))

/-- `x ^ y`. Any number to the power zero, and one to any power, is one. A negative number has only
integer powers. -/
def pow (x y : Nat) : Nat :=
  match double.decode x, double.decode y with
  | .nan, .finite _ 0 _ => double.round 1 1
  | .nan, _ => x
  | _, .nan => if x = double.round 1 1 then x else y
  | .infinite _, .infinite t => if t then 0 else double.infinity
  | .infinite s, .finite t n d =>
    if n = 0 then double.round 1 1
    else double.withSign (s && isOdd n d) (if t then 0 else double.infinity)
  | .finite _ m e, .infinite t =>
    let unit := m == 2 ^ m.log2 && e + m.log2 == 0
    if unit then double.round 1 1
    else if (0 ≤ e + m.log2 && m != 0) != t then double.infinity
    else 0
  | .finite s m e, .finite t n d =>
    if n = 0 then double.round 1 1
    else if m = 0 then double.withSign (s && isOdd n d) (if t then double.infinity else 0)
    else if s && !isInteger n d then double.defaultNaN
    else double.withSign (s && isOdd n d) (powMagnitude m e t n d)

def exp2 (x : Nat) : Nat :=
  match double.decode x with
  | .nan => x
  | .infinite s => if s then 0 else x
  | .finite _ _ _ => pow (double.round 2 1) x

end Double
end SymExec.Binary

import SymExec.Binary.Arith

/-!
# Decimal text of binary numbers

`Format.shortest` gives the fewest decimal digits that read back as the same number, and among those
the nearest. `Format.ofDecimal` reads a decimal.
-/
namespace SymExec.Binary.Format

attribute [local instance(2000)] instPowNat

/-! ## Reading -/

/-- The number nearest to `± digits * 10 ^ exp`. Exponents far outside the range of the format
give zero or infinity without building the power. -/
def ofDecimal (f : Format) (negative : Bool) (digits : Nat) (exp : Int) : Nat :=
  let size : Int := (Nat.toDigits 10 digits).length
  f.withSign negative
    (if digits = 0 then 0
    else if exp + size < f.minExp - 10 then 0
    else if exp + size > -f.minExp + 10 then f.infinity
    else if 0 ≤ exp then f.round (digits * 10 ^ exp.toNat) 1
    else f.round digits (10 ^ (-exp).toNat))

/-! ## Writing -/

/-- A decimal `digits * 10 ^ exp`. -/
structure Decimal where
  digits : Nat
  exp : Int
  deriving DecidableEq, Repr

/-- The two neighbours of `num / den` among the multiples of `10 ^ exp`, the nearer one first; a tie
goes to the even multiple. -/
def neighbours (num den : Nat) (exp : Int) : List Decimal :=
  let n := num * 10 ^ (-exp).toNat
  let d := den * 10 ^ exp.toNat
  let near := nearestEven n d
  let low := n / d
  [⟨near, exp⟩, ⟨if near = low then low + 1 else low, exp⟩]

/-- Tries grids of ever more digits; `exp` is the power of ten of the current grid. -/
def shortestFrom (f : Format) (pattern num den : Nat) (exp : Int) : (fuel : Nat) → Decimal
  | 0 => ⟨nearestEven (num * 10 ^ (-exp).toNat) (den * 10 ^ exp.toNat), exp⟩
  | fuel + 1 =>
    match (neighbours num den exp).find? fun d => f.ofDecimal false d.digits d.exp == pattern with
    | some d => d
    | none => shortestFrom f pattern num den (exp - 1) fuel

/-- The exponent of the leading decimal digit of the positive rational `num / den`, or one more. -/
def leadingTen (num den : Nat) : Int :=
  if den ≤ num then (Nat.toDigits 10 (num / den)).length
  else 1 - (Nat.toDigits 10 (den / num)).length

/-- A decimal without zeros at its end. -/
def Decimal.normal (d : Decimal) : (fuel : Nat) → Decimal
  | 0 => d
  | fuel + 1 =>
    if d.digits ≠ 0 ∧ d.digits % 10 = 0 then Decimal.normal ⟨d.digits / 10, d.exp + 1⟩ fuel else d

/-- The shortest decimal that reads back as the positive finite number `mant * 2 ^ exp`. -/
def shortest (f : Format) (pattern mant : Nat) (exp : Int) : Decimal :=
  let num := mant * 2 ^ exp.toNat
  let den := 2 ^ (-exp).toNat
  (shortestFrom f pattern num den (leadingTen num den) 20).normal 400

/-- Numbers whose leading digit stands for `10 ^ e` with `-4 ≤ e < 16` are written positionally,
with at least one digit after the point. Others have an exponent of at least two digits. -/
def Decimal.text (d : Decimal) : String :=
  let ds := Nat.toDigits 10 d.digits
  let point : Int := ds.length + d.exp
  let zeros := fun (n : Int) => List.replicate n.toNat '0'
  if -4 < point ∧ point ≤ 16 then
    if point ≤ 0 then String.ofList ("0.".toList ++ zeros (-point) ++ ds)
    else
      let whole := ds.take point.toNat ++ zeros d.exp
      let rest := ds.drop point.toNat
      String.ofList (whole ++ ['.'] ++ if rest.isEmpty then ['0'] else rest)
  else
    let e := point - 1
    let eDigits := Nat.toDigits 10 e.natAbs
    let mantissa := match ds with
      | [] => ['0']
      | [x] => [x]
      | x :: xs => x :: '.' :: xs
    String.ofList (mantissa ++ ['e', if e < 0 then '-' else '+']
      ++ List.replicate (2 - eDigits.length) '0' ++ eDigits)

def text (f : Format) (pattern : Nat) : String :=
  match f.decode pattern with
  | .nan => "nan"
  | .infinite s => if s then "-inf" else "inf"
  | .finite s m e =>
    let body := if m = 0 then "0.0" else (f.shortest (f.magnitude pattern) m e).text
    if s then "-" ++ body else body

end SymExec.Binary.Format

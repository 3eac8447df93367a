import SymExec.Text.Blank
import SymExec.Text.Digit
import SymExec.Text.Quoted
import SymExec.Binary.Decimal

/-!
# Numerals

Integers and binary numbers written as text. Blanks around a numeral are dropped, digits of every
script count, and a single underscore may stand between two digits.
-/
namespace SymExec.Text

attribute [local instance(2000)] instPowNat

/-- Why a text or number is not a numeral of the wanted sort, or not what is written as bytes. -/
inductive NumeralError where
  /-- A literal, as it is shown, that is no integer in a base. -/
  | notInteger (base : Nat) (shown : String)
  | tooLong (digits : Nat)
  /-- An integer of more digits than are written. -/
  | unprintable
  | notNumber (shown : String)
  /-- "Not a number" has no integer part. -/
  | nan
  /-- A number cut to fewer than no bits. -/
  | negativeWidth
  /-- A text with so many halves of surrogate pairs one after the other, from a position on. -/
  | surrogates (first : Nat) (start count : Nat)
  deriving DecidableEq, Repr

/-- The most decimal digits that an integer is read from or written with. -/
def maxDigits : Nat := 4300

def NumeralError.message : NumeralError → String
  | notInteger base shown =>
    s!"invalid literal for int() with base {base}: " ++ String.ofList (shown.toList.take 200)
  | tooLong digits =>
    s!"Exceeds the limit ({maxDigits} digits) for integer string conversion: value has " ++
      s!"{digits} digits; use sys.set_int_max_str_digits() to increase the limit"
  | unprintable =>
    s!"Exceeds the limit ({maxDigits} digits) for integer string conversion; " ++
      "use sys.set_int_max_str_digits() to increase the limit"
  | notNumber shown => "could not convert string to float: " ++ shown
  | nan => "cannot convert float NaN to integer"
  | negativeWidth => "negative shift count"
  | surrogates first start count =>
    "'utf-8' codec can't encode " ++
      (if count = 1 then "character '\\u" ++ hex 4 first ++ s!"' in position {start}"
        else s!"characters in position {start}-{start + count - 1}") ++
      ": surrogates not allowed"

/-- Blanks around a numeral: the ASCII ones, and all white space beyond ASCII. -/
def isNumeralBlank (c : Char) : Bool := isAsciiBlank c || (128 ≤ c.toNat && isBlank c)

/-- A digit of any script as an ASCII digit, other characters unchanged. -/
def asciiDigit (c : Char) : Char :=
  match digit? c with
  | some d => Char.ofNat (48 + d)
  | none => c

def takeSign : List Char → Bool × List Char
  | '-' :: cs => (true, cs)
  | '+' :: cs => (false, cs)
  | cs => (false, cs)

/-- Whether every underscore stands between two ASCII digits; `before` is the character ahead. -/
def underscoresFit (before : Char) : List Char → Bool
  | [] => before != '_'
  | c :: cs =>
    (if c == '_' then before.isDigit else before != '_' || c.isDigit) && underscoresFit c cs

def digitsValue (cs : List Char) : Nat :=
  cs.foldl (fun n c => if c == '_' then n else 10 * n + (c.toNat - 48)) 0

/-- Reads an integer from characters without blanks around them. -/
def decimalInteger (cs : List Char) (shown : String) : Except NumeralError Int :=
  let (negative, body) := takeSign cs
  let run := body.takeWhile fun c => c.isDigit || c == '_'
  let size := (run.filter (· != '_')).length
  if run.isEmpty || !underscoresFit ' ' run then .error (.notInteger 10 shown)
  else if maxDigits < size then .error (.tooLong size)
  else if run.length ≠ body.length then .error (.notInteger 10 shown)
  else
    let n : Int := digitsValue run
    .ok (if negative then -n else n)

def integer (s : String) : Except NumeralError Int :=
  decimalInteger ((strip isNumeralBlank s.toList).map asciiDigit) (quoted s)

/-- Whether an integer has few enough digits to be written. -/
def isPrintableInt (n : Int) : Bool := n.natAbs < 10 ^ maxDigits

def decimal (n : Int) : Except NumeralError String :=
  if isPrintableInt n then .ok (toString n) else .error .unprintable

/-! ## Other bases -/

def baseDigit? (c : Char) : Option Nat :=
  if c.isDigit then some (c.toNat - 48)
  else if 'a' ≤ c ∧ c ≤ 'f' then some (c.toNat - 87)
  else if 'A' ≤ c ∧ c ≤ 'F' then some (c.toNat - 55)
  else none

def baseLetters (base : Nat) : List Char :=
  if base = 2 then ['b', 'B'] else if base = 8 then ['o', 'O'] else ['x', 'X']

/-- The digits of a numeral without the mark of its base. -/
def dropBaseMark (base : Nat) : List Char → List Char
  | '0' :: c :: cs => if (baseLetters base).contains c then cs else '0' :: c :: cs
  | cs => cs

def baseValue? (base : Nat) (cs : List Char) : Option Nat :=
  cs.foldlM (fun n c => (baseDigit? c).bind fun d =>
    if d < base then some (base * n + d) else none) 0

/-- Reads an integer in base two, eight or sixteen, which may be marked. Such integers have any
number of digits, and no underscores. -/
def integerIn (base : Nat) (s : String) : Except NumeralError Int :=
  let (negative, body) := takeSign ((strip isNumeralBlank s.toList).map asciiDigit)
  let digits := dropBaseMark base body
  match baseValue? base digits with
  | some n => if digits.isEmpty then .error (.notInteger base (quoted s))
    else .ok (if negative then -(n : Int) else n)
  | none => .error (.notInteger base (quoted s))

/-- The parts of a decimal: whole part, fraction, exponent. -/
structure DecimalParts where
  whole : List Char
  fraction : List Char
  exponent : Int

/-- Reads `12.5e-3`, with a digit before or after the point. -/
def decimalParts? (cs : List Char) : Option DecimalParts :=
  let whole := cs.takeWhile Char.isDigit
  let rest := cs.dropWhile Char.isDigit
  let (fraction, rest) := match rest with
    | '.' :: r => (r.takeWhile Char.isDigit, r.dropWhile Char.isDigit)
    | r => ([], r)
  if whole.isEmpty && fraction.isEmpty then none
  else
    match rest with
    | [] => some ⟨whole, fraction, 0⟩
    | c :: r =>
      if c == 'e' || c == 'E' then
        let (negative, digits) := takeSign r
        if digits.isEmpty || !digits.all Char.isDigit then none
        else
          let n : Int := digitsValue digits
          some ⟨whole, fraction, if negative then -n else n⟩
      else none

/-- The pattern of a decimal or of a named number, without sign. -/
def unsignedNumber? (cs : List Char) : Option Nat :=
  let word := (String.ofList cs).toLower
  if word = "inf" ∨ word = "infinity" then some Binary.double.infinity
  else if word = "nan" then some Binary.double.defaultNaN
  else
    (decimalParts? cs).map fun d =>
      Binary.double.ofDecimal false (digitsValue (d.whole ++ d.fraction))
        (d.exponent - d.fraction.length)

def number (s : String) : Except NumeralError Nat :=
  let cs := (strip isNumeralBlank s.toList).map asciiDigit
  if cs.contains '_' && !underscoresFit ' ' cs then .error (.notNumber (quoted s))
  else
    let (negative, body) := takeSign (cs.filter (· != '_'))
    match unsignedNumber? body with
    | some pattern => .ok (Binary.double.withSign negative pattern)
    | none => .error (.notNumber (quoted s))

end SymExec.Text

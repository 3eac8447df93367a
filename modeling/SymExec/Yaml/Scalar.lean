import SymExec.Setting
import SymExec.Text.Base64
import SymExec.Yaml.Tag

/-!
# Values of scalars

What the content of a scalar stands for, given its sort. A tag can claim any sort for any text, so
each reader says which texts it has no value for.
-/
namespace SymExec.Yaml

/-- A number without its sign and without underscores. There has to be something. -/
def unsignedBody (cs : List Char) : Except Error (Bool × List Char) :=
  match cs.filter (· != '_') with
  | [] => .error .malformed
  | '-' :: body => .ok (true, body)
  | '+' :: body => .ok (false, body)
  | body => .ok (false, body)

/-- Code points without underscores and without a sign. -/
def unsignedPoints (ps : List Nat) : List Nat :=
  match ps.filter (· != 95) with
  | p :: rest => if p = 43 ∨ p = 45 then rest else p :: rest
  | [] => []

/-- An integer in base sixty, by its parts. -/
def sexagesimal (parts : List (List Char)) : Except Error Int :=
  parts.foldlM (fun n part => do
    return 60 * n + (← (Text.integer (String.ofList part)).mapError .numeral)) 0

/-- The value of an integer: binary, octal, hexadecimal, in base sixty, or decimal. -/
def intValue (cs : List Char) : Except Error Int := do
  let (negative, body) ← unsignedBody cs
  let n ← match body with
    | [] => throw .malformed
    | ['0'] => pure 0
    | '0' :: 'b' :: ds => (Text.integerIn 2 (String.ofList ds)).mapError .numeral
    | '0' :: 'x' :: ds => (Text.integerIn 16 (String.ofList ds)).mapError .numeral
    | '0' :: _ => (Text.integerIn 8 (String.ofList body)).mapError .numeral
    | _ =>
      if body.contains ':' then sexagesimal (body.splitOn ':')
      else (Text.integer (String.ofList body)).mapError .numeral
  return if negative then -n else n

/-- The sum of numbers times powers of sixty, least power first. There is no sum if a power is
beyond the numbers of double precision. -/
def sexagesimalSum (total power : Nat) : List Nat → Except Error Nat
  | [] => .ok total
  | x :: xs =>
    let scale := Binary.double.ofInt power
    if scale = Binary.double.infinity then .error .malformed
    else sexagesimalSum (Binary.double.add total (Binary.double.mul x scale)) (60 * power) xs

/-- The pattern of a number with a point, in base sixty, or with a name. -/
def floatValue (cs : List Char) : Except Error Nat := do
  let (negative, body) ← unsignedBody (cs.map Char.toLower)
  let signed := fun pattern =>
    if negative && !Binary.double.isNaN pattern then Binary.double.negate pattern else pattern
  if body = ".inf".toList then return signed Binary.double.infinity
  else if body = ".nan".toList then return Binary.double.defaultNaN
  else if body.contains ':' then
    let parts ← (body.splitOn ':').mapM fun part =>
      (Text.number (String.ofList part)).mapError .numeral
    return signed (← sexagesimalSum 0 1 parts.reverse)
  else return signed (← (Text.number (String.ofList body)).mapError .numeral)

def boolValue (cs : List Char) : Except Error Bool :=
  let word := String.ofList (cs.map Char.toLower)
  if ["yes", "true", "on"].contains word then .ok true
  else if ["no", "false", "off"].contains word then .ok false
  else .error .malformed

/-- The day or moment of a timestamp. A line feed at its end does not count. -/
def timestampValue (cs : List Char) : Except Error Setting :=
  let body := if cs.getLast? = some '\n' then cs.dropLast else cs
  match Timestamp.parse? body with
  | none => .error .malformed
  | some t =>
    let n := Timestamp.value
    Except.mapError .calendar <|
      match t.clock with
      | none => (Calendar.Date.make (n t.year) (n t.month) (n t.day)).map .date
      | some c =>
        (Calendar.Moment.make (n t.year) (n t.month) (n t.day) (n c.hour) (n c.minute) (n c.second)
          (Timestamp.micros c.fraction) c.offset).map .moment

/-- The value of a scalar of a sort, or nothing if scalars are not of that sort. -/
def scalarValue (tag : Tag) (content : Content) : Except Error Setting :=
  match tag, content with
  | .null, _ => .ok (.value .null)
  | .str, .text cs => .ok (.value (.str (String.ofList cs)))
  | .str, .points ps => .ok (.points ps)
  | .bool, .text cs => (boolValue cs).map fun b => .value (.bool b)
  | .int, .text cs => (intValue cs).map fun n => .value (.int n)
  | .int, .points ps =>
    .error (.numeral (.notInteger 10 (Text.quotedPoints (unsignedPoints ps))))
  | .float, .text cs => (floatValue cs).map fun p => .value (.float (BitVec.ofNat 64 p))
  | .float, .points ps =>
    .error (.numeral (.notNumber (Text.quotedPoints (unsignedPoints ps))))
  | .timestamp, .text cs => timestampValue cs
  | .binary, .text cs =>
    match if cs.all (·.toNat < 128) then Text.Base64.decode? cs else none with
    | some bytes => .ok (.bytes bytes)
    | none => .error .malformed
  | _, _ => .error .malformed

end SymExec.Yaml

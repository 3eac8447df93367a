import SymExec.Yaml.Timestamp
import SymExec.Yaml.Token

/-!
# Tags

A tag says of what sort a node is. A scalar without tag and without quotes is of the sort that its
text looks like under the rules of YAML 1.1.
-/
namespace SymExec.Yaml

inductive Tag where
  | null
  | bool
  | int
  | float
  | timestamp
  | binary
  | str
  /-- A key whose value is a mapping with further entries. -/
  | merge
  /-- A key whose value stands for the whole mapping where a scalar is wanted. -/
  | value
  | seq
  | map
  | set
  | omap
  | pairs
  /-- A sort that no value is known for. -/
  | other
  deriving DecidableEq, Repr

/-- The names of the tags that a value is known for, and of the two special keys. -/
def Tag.names : List (String × Tag) := [
  ("null", .null), ("bool", .bool), ("int", .int), ("float", .float), ("timestamp", .timestamp),
  ("binary", .binary), ("str", .str), ("merge", .merge), ("value", .value), ("seq", .seq),
  ("map", .map), ("set", .set), ("omap", .omap), ("pairs", .pairs)]

def Tag.common : String := "tag:yaml.org,2002:"

def Tag.ofName (name : String) : Tag :=
  ((Tag.names.find? fun (short, _) => Tag.common ++ short == name).map Prod.snd).getD .other

/-! ## The sort of a text -/

/-- Whether there are characters, all of one class or underscores. -/
def allOf (inClass : Char → Bool) (cs : List Char) : Bool :=
  !cs.isEmpty && cs.all fun c => inClass c || c == '_'

def isBinaryDigit (c : Char) : Bool := c == '0' || c == '1'

def isOctalDigit (c : Char) : Bool := '0' ≤ c && c ≤ '7'

def isHexDigit (c : Char) : Bool := (Text.baseDigit? c).isSome

/-- A part of a number in base sixty after the first one: below sixty, of one or two digits. -/
def isSixtieth (cs : List Char) : Bool :=
  match cs with
  | [c] => c.isDigit
  | [b, c] => '0' ≤ b && b ≤ '5' && c.isDigit
  | _ => false

/-- Whether there are decimal digits, a true digit first. -/
def isWhole (cs : List Char) : Bool := (cs.headD '_').isDigit && allOf Char.isDigit cs

/-- Whether a text without sign is an integer: binary, octal, hexadecimal, decimal, or in base
sixty. -/
def looksUnsigned (cs : List Char) : Bool :=
  match cs with
  | ['0'] => true
  | '0' :: 'b' :: ds => allOf isBinaryDigit ds
  | '0' :: 'x' :: ds => allOf isHexDigit ds
  | '0' :: ds => allOf isOctalDigit ds
  | cs =>
    match cs.splitOn ':' with
    | first :: parts => isWhole first && parts.all isSixtieth
    | [] => false

/-- Whether a text is empty or an exponent, which has a sign. -/
def isExponent (cs : List Char) : Bool :=
  match cs with
  | [] => true
  | e :: sign :: ds =>
    (e == 'e' || e == 'E') && (sign == '-' || sign == '+') && !ds.isEmpty && ds.all Char.isDigit
  | _ => false

/-- Whether a text without sign is a number with a point. Without digits before the point there is
no sign and there are digits after it; in base sixty there is no exponent. -/
def looksPointed (signed : Bool) (cs : List Char) : Bool :=
  let digit := fun (c : Char) => c.isDigit || c == '_'
  let ahead := cs.takeWhile (· != '.')
  match cs.dropWhile (· != '.') with
  | '.' :: rest =>
    if ahead.isEmpty then
      !signed && (rest.headD '_').isDigit && isExponent (rest.dropWhile digit)
    else
      match ahead.splitOn ':' with
      | [whole] => isWhole whole && isExponent (rest.dropWhile digit)
      | whole :: parts => isWhole whole && parts.all isSixtieth && rest.all digit
      | [] => false
  | _ => false

/-- Whether a text is a number with a point, or the name of one that is not finite. -/
def looksFloat (cs : List Char) : Bool :=
  let (_, body) := Text.takeSign cs
  [".inf", ".Inf", ".INF"].contains (String.ofList body) ||
    [".nan", ".NaN", ".NAN"].contains (String.ofList cs) ||
    looksPointed (body.length < cs.length) body

/-- The sort of a text that has neither quotes nor a tag. A line feed at its end does not count,
unless there is nothing else. -/
def Tag.ofText (cs : List Char) : Tag :=
  let body := if cs.getLast? = some '\n' then cs.dropLast else cs
  let word := String.ofList body
  if body.isEmpty then if cs.isEmpty then .null else .str
  else if ["yes", "Yes", "YES", "no", "No", "NO", "true", "True", "TRUE", "false", "False", "FALSE",
    "on", "On", "ON", "off", "Off", "OFF"].contains word then .bool
  else if looksFloat body then .float
  else if looksUnsigned (Text.takeSign body).2 then .int
  else if word = "<<" then .merge
  else if ["~", "null", "Null", "NULL"].contains word then .null
  else if ((Timestamp.parse? body).map Timestamp.isPlain).getD false then .timestamp
  else if word = "=" then .value
  else .str

/-- The sort of a scalar without a tag. -/
def Tag.ofContent (plain : Bool) : Content → Tag
  | .text cs => if plain then .ofText cs else .str
  | .points _ => .str

end SymExec.Yaml

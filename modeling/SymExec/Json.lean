import SymExec.Text.Numeral

/-!
# JSON values

An object keeps its members in the order they were written in. A number with a fraction or an
exponent is a binary number in double precision; any other is an integer of any size.
-/
namespace SymExec

-- powers are those of core, also where others are in scope
attribute [local instance(2000)] instPowNat

/-- A JSON value. Integers have any size; other numbers are doubles, given by their pattern. -/
inductive Json where
  | null
  | bool (b : Bool)
  | int (n : Int)
  | float (pattern : BitVec 64)
  | str (s : String)
  | arr (items : List Json)
  | obj (members : List (String × Json))
  deriving Repr, Inhabited

namespace Json

/-! ## Text -/

mutual

/-- The text of a value in messages: words for the constants, quoted strings, and brackets. -/
def text : Json → String
  | null => "None"
  | bool b => if b then "True" else "False"
  | int n => toString n
  | float p => Binary.double.text p.toNat
  | str s => Text.quoted s
  | arr items => "[" ++ textItems items ++ "]"
  | obj members => "\x7b" ++ textMembers members ++ "\x7d"

def textItems : List Json → String
  | [] => ""
  | [v] => text v
  | v :: vs => text v ++ ", " ++ textItems vs

def textMembers : List (String × Json) → String
  | [] => ""
  | [(k, v)] => Text.quoted k ++ ": " ++ text v
  | (k, v) :: ms => Text.quoted k ++ ": " ++ text v ++ ", " ++ textMembers ms

end

mutual

/-- Whether all integers in a value have few enough digits to be written. -/
def isPrintable : Json → Bool
  | int n => Text.isPrintableInt n
  | arr items => allPrintable items
  | obj members => membersPrintable members
  | _ => true

def allPrintable : List Json → Bool
  | [] => true
  | v :: vs => v.isPrintable && allPrintable vs

def membersPrintable : List (String × Json) → Bool
  | [] => true
  | (_, v) :: ms => v.isPrintable && membersPrintable ms

end

/-- A string as it is, any other value as its text. -/
def display : Json → String
  | str s => s
  | v => v.text

/-! ## Access -/

def lookup (key : String) (members : List (String × Json)) : Option Json :=
  (members.find? fun (k, _) => k == key).map Prod.snd

def get? (v : Json) (key : String) : Option Json :=
  match v with
  | obj members => lookup key members
  | _ => none

/-- A member set: in place if the key is there, else at the end. -/
def insert (key : String) (value : Json) : List (String × Json) → List (String × Json)
  | [] => [(key, value)]
  | (k, v) :: ms => if k = key then (k, value) :: ms else (k, v) :: insert key value ms

/-- The values that a value lists: the items of a list, the characters of a string, the keys of
an object. -/
def listed? : Json → Option (List Json)
  | arr items => some items
  | str s => some (s.toList.map fun c => str (String.singleton c))
  | obj members => some (members.map fun (k, _) => str k)
  | _ => none

/-- Whether a value counts as true: all do but zero, the empty ones and `null`. -/
def truthy : Json → Bool
  | null => false
  | bool b => b
  | int n => n != 0
  | float p => !Binary.double.isZero p.toNat
  | str s => !s.isEmpty
  | arr items => !items.isEmpty
  | obj members => !members.isEmpty

/-! ## Names -/

/-- Whether a value can name something: lists and objects cannot. -/
def isName : Json → Bool
  | arr _ | obj _ => false
  | _ => true

/-- The exact value of a number or truth value, as an integer times a power of two. -/
def dyadic? : Json → Option (Int × Int)
  | bool b => some (if b then 1 else 0, 0)
  | int n => some (n, 0)
  | float p => match Binary.double.decode p.toNat with
    | .finite s m e => some (Binary.Format.signedMant s m, e)
    | _ => none
  | _ => none

/-- Whether two values are the same name. Numbers are compared by value. -/
def sameName (a b : Json) : Bool :=
  match a, b with
  | null, null => true
  | str s, str t => s == t
  | float p, float q => Binary.double.compare? p.toNat q.toNat == some .eq
  | a, b => match a.dyadic?, b.dyadic? with
    | some (n, e), some (m, d) =>
      let low := min e d
      n * 2 ^ (e - low).toNat == m * 2 ^ (d - low).toNat
    | _, _ => false

end Json
end SymExec

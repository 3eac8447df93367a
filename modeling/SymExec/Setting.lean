import SymExec.Calendar
import SymExec.Json.Number
import SymExec.Text.Points

/-!
# Settings

What a configuration is written with: JSON values, and what only YAML has, which is dates, bytes and
mappings whose keys need not be text.
-/
namespace SymExec

/-- A value of a configuration as it is written. -/
inductive Setting where
  | value (v : Json)
  /-- Text with a surrogate in it, given by its code points. -/
  | points (ps : List Nat)
  | bytes (bs : List UInt8)
  | date (d : Calendar.Date)
  | moment (m : Calendar.Moment)
  /-- Entries in their order. No key is there twice. -/
  | mapping (entries : List (Setting × Setting))

namespace Setting

mutual

def ofJson : Json → Setting
  | .obj members => mapping (ofMembers members)
  | v => value v

def ofMembers : List (String × Json) → List (Setting × Setting)
  | [] => []
  | (k, v) :: ms => (value (.str k), ofJson v) :: ofMembers ms

end

/-- Whether a setting counts as true: all do but zero, the empty ones and `null`. -/
def truthy : Setting → Bool
  | value v => v.truthy
  | points ps => !ps.isEmpty
  | bytes bs => !bs.isEmpty
  | date _ | moment _ => true
  | mapping entries => !entries.isEmpty

/-- The integer of a setting. Bytes are read as ASCII text. -/
def toInt : Setting → Except Failure Int
  | value v => v.toInt
  | points ps => .error (.numeral (.notInteger 10 (Text.quotedPoints ps)))
  | bytes bs =>
    (Text.decimalInteger
      (Text.strip Text.isAsciiBlank (bs.map fun b => Char.ofNat b.toNat))
      (Text.quotedBytes bs)).mapError .numeral
  | date _ | moment _ | mapping _ => .error .crash

def text : Setting → String
  | value v => v.text
  | points ps => Text.quotedPoints ps
  | bytes bs => Text.quotedBytes bs
  | date d => d.text
  | moment m => m.text
  | mapping _ => ""

/-- The name that a key stands for: text as it is, any other key as it is shown. -/
def name : Setting → Except Text.NumeralError String
  | value (.str s) => .ok s
  | value (.int n) => Text.decimal n
  | k => .ok k.text

def sameKey : Setting → Setting → Bool
  | value a, value b => a.sameName b
  | points p, points q => p == q
  | bytes a, bytes b => a == b
  | date a, date b => a == b
  | moment a, moment b => a == b
  | _, _ => false

end Setting
end SymExec

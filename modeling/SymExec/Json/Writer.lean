import SymExec.Json

/-!
# Writing JSON

Values are written on one line. Characters beyond printable ASCII are escaped by their UTF-16 units.
-/
namespace SymExec.Json

def unitEscape (n : Nat) : String := "\\u" ++ Text.hex 4 n

def writtenChar (c : Char) : String :=
  let n := Text.point c
  if c = '"' then "\\\""
  else if c = '\\' then "\\\\"
  else if 32 ≤ n ∧ n < 127 then String.singleton c
  else if n < 0x10000 then unitEscape n
  else
    unitEscape (0xd800 + (n - 0x10000) / 0x400) ++ unitEscape (0xdc00 + (n - 0x10000) % 0x400)

def writeString (s : String) : String :=
  s.toList.foldl (fun out c => out ++ writtenChar c) "\"" ++ "\""

/-- A number, with names for those that have no digits. -/
def writeFloat (pattern : Nat) : String :=
  match Binary.double.decode pattern with
  | .nan => "NaN"
  | .infinite s => if s then "-Infinity" else "Infinity"
  | .finite _ _ _ => Binary.double.text pattern

mutual

def write : Json → String
  | null => "null"
  | bool b => if b then "true" else "false"
  | int n => toString n
  | float p => writeFloat p.toNat
  | str s => writeString s
  | arr items => "[" ++ writeItems items ++ "]"
  | obj members => "\x7b" ++ writeMembers members ++ "\x7d"

def writeItems : List Json → String
  | [] => ""
  | [v] => write v
  | v :: vs => write v ++ ", " ++ writeItems vs

def writeMembers : List (String × Json) → String
  | [] => ""
  | [(k, v)] => writeString k ++ ": " ++ write v
  | (k, v) :: ms => writeString k ++ ": " ++ write v ++ ", " ++ writeMembers ms

end

end SymExec.Json

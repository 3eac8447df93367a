/-!
# Operators

The binary and unary operators of the intermediate language, with their names in program files.
-/
namespace SymExec

inductive BinOp where
  | add | sub | mul | div | rem
  | bitXor | bitAnd | bitOr | shl | shr
  | eq | ne | lt | le | gt | ge
  deriving DecidableEq, Repr

namespace BinOp

def name : BinOp → String
  | add => "add"
  | sub => "sub"
  | mul => "mul"
  | div => "div"
  | rem => "rem"
  | bitXor => "bit_xor"
  | bitAnd => "bit_and"
  | bitOr => "bit_or"
  | shl => "shl"
  | shr => "shr"
  | eq => "eq"
  | ne => "ne"
  | lt => "lt"
  | le => "le"
  | gt => "gt"
  | ge => "ge"

def all : List BinOp :=
  [add, sub, mul, div, rem, bitXor, bitAnd, bitOr, shl, shr, eq, ne, lt, le, gt, ge]

def ofName? (s : String) : Option BinOp := all.find? fun op => op.name == s

def isComparison : BinOp → Bool
  | eq | ne | lt | le | gt | ge => true
  | _ => false

/-- Whether the second operand is a shift amount, which may have a kind of its own. -/
def isShift : BinOp → Bool
  | shl | shr => true
  | _ => false

end BinOp

inductive UnOp where
  | not | neg
  deriving DecidableEq, Repr

namespace UnOp

def name : UnOp → String
  | not => "not"
  | neg => "neg"

def ofName? (s : String) : Option UnOp := [not, neg].find? fun op => op.name == s

end UnOp
end SymExec

/-!
# Kinds of machine words

Every primitive value is read at a kind, which fixes its width and, for integers, its sign.
-/
namespace SymExec

inductive Width where
  | w8 | w16 | w32 | w64 | w128
  deriving DecidableEq, Repr

def Width.bytes : Width → Nat
  | w8 => 1
  | w16 => 2
  | w32 => 4
  | w64 => 8
  | w128 => 16

def Width.ofBytes? : Nat → Option Width
  | 1 => some w8
  | 2 => some w16
  | 4 => some w32
  | 8 => some w64
  | 16 => some w128
  | _ => none

def pointerSize : Nat := 8

/-- The machine-level kind of a primitive value. -/
inductive Kind where
  | int (width : Width) (signed : Bool)
  | f32 | f64 | bool | char | ptr | fnPtr
  deriving DecidableEq, Repr

namespace Kind

abbrev u8 : Kind := int .w8 false
abbrev u64 : Kind := int .w64 false
abbrev i64 : Kind := int .w64 true

def numBytes : Kind → Nat
  | int w _ => w.bytes
  | f32 => 4
  | f64 => 8
  | bool => 1
  | char => 4
  | ptr => pointerSize
  | fnPtr => pointerSize

def bits (k : Kind) : Nat := 8 * k.numBytes

/-- Whether values of the kind are two's complement numbers. -/
def isSigned : Kind → Bool
  | int _ signed => signed
  | _ => false

def isFloat : Kind → Bool
  | f32 | f64 => true
  | _ => false

def label : Kind → String
  | int w signed => (if signed then "i" else "u") ++ toString (8 * w.bytes)
  | f32 => "f32"
  | f64 => "f64"
  | bool => "bool"
  | char => "char"
  | ptr => "ptr"
  | fnPtr => "fnptr"

def all : List Kind :=
  ([Width.w8, .w16, .w32, .w64, .w128].flatMap fun w => [int w true, int w false])
    ++ [f32, f64, bool, char, ptr, fnPtr]

def ofLabel? (s : String) : Option Kind := all.find? fun k => k.label == s

end Kind
end SymExec

import SymExec.Json
import SymExec.Kind

/-!
# Types and their names

The types of the intermediate language, and how they are written. Not every type has a name: a tuple of
several types joins theirs, which have to be text, and an integer has only so many digits.
-/
namespace SymExec

/-- Why something cannot be written. -/
inductive Unwritable where
  /-- What is joined to text is none. -/
  | notText
  /-- An integer has too many digits. -/
  | tooLong

inductive Ty where
  | int (width : Width) (signed : Bool) (pointerSized : Bool)
  | bool
  | char
  | f32
  | f64
  | rawPtr (pointee : Ty) (mutable : Bool)
  | ref (pointee : Ty) (mutable : Bool)
  | fnPtr (signature : String)
  | slice (elem : Ty)
  | str
  | array (elem : Ty) (length : Int)
  | tuple (fields : List Ty)
  /-- A struct, whose name may be any value where it is declared in place. -/
  | struct (name : Json) (fields : List Ty) (dropGlue : Bool)
  deriving Repr, Inhabited

namespace Ty

abbrev u8 : Ty := int .w8 false false
abbrev usize : Ty := int .w64 false true
abbrev unit : Ty := tuple []
abbrev strRef : Ty := ref str false

/-! ## Names -/

mutual

/-- The name of a type, if it can be written. -/
def text : Ty → String
  | int w signed pointerSized =>
    (if signed then "i" else "u") ++ (if pointerSized then "size" else toString (8 * w.bytes))
  | bool => "bool"
  | char => "char"
  | f32 => "f32"
  | f64 => "f64"
  | rawPtr pointee mutable => (if mutable then "*mut " else "*const ") ++ pointee.text
  | ref pointee mutable => (if mutable then "&mut " else "&") ++ pointee.text
  | fnPtr signature => signature
  | slice elem => "[" ++ elem.text ++ "]"
  | str => "str"
  | array elem length => "[" ++ elem.text ++ "; " ++ toString length ++ "]"
  | tuple fields =>
    "(" ++ texts fields ++ (if fields.length = 1 then ",)" else ")")
  | struct name _ _ => name.display

def texts : List Ty → String
  | [] => ""
  | [t] => t.text
  | t :: ts => t.text ++ ", " ++ texts ts

end

/-- The name of a type as a value: that of a struct is the value it was given. -/
def label : Ty → Json
  | struct name _ _ => name
  | t => .str t.text

def isTextual (t : Ty) : Bool :=
  match t.label with
  | .str _ => true
  | _ => false

/-- Why a name cannot be put into a text, where there is one. -/
def labelFault? : Ty → Option Unwritable
  | struct name _ _ => if name.isPrintable then none else some .tooLong
  | _ => none

/-- Why the names of the fields of a tuple cannot be put together. -/
def joinFault? : List Ty → Option Unwritable
  | [t] => t.labelFault?
  | ts => if ts.all isTextual then none else some .notText

mutual

/-- Why a type has no name. -/
def fault? : Ty → Option Unwritable
  | rawPtr inner _ | ref inner _ | slice inner => inner.fault?.or inner.labelFault?
  | array elem length =>
    (elem.fault?.or elem.labelFault?).or (if Text.isPrintableInt length then none else some .tooLong)
  | tuple fields => (anyFault? fields).or (joinFault? fields)
  | _ => none

def anyFault? : List Ty → Option Unwritable
  | [] => none
  | t :: ts => t.fault?.or (anyFault? ts)

end

def isSpelled (t : Ty) : Bool := t.fault?.isNone

/-- Why the name of a type cannot be put into a text. -/
def nameFault? (t : Ty) : Option Unwritable := t.fault?.or t.labelFault?

/-- The name of a type, as a text shows it. -/
def name (t : Ty) : Except Unwritable String :=
  match t.nameFault? with
  | none => .ok t.text
  | some fault => .error fault

end Ty
end SymExec

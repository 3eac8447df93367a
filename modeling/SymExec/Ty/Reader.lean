import SymExec.Ty

/-!
# Reading types

Types are written as `u8`, `&[u8]`, `*const u32`, `[u8; 4]`, `(u8, bool)`, `fn()` or the name of a
struct. `Ty.read` takes such a text to the type.
-/
namespace SymExec.Ty

abbrev Structs := List (String × Ty)

inductive ReadFault where
  | unknown (name : String)
  | badLength (text : String)
  /-- Brackets with nothing between them. -/
  | empty
  deriving DecidableEq, Repr

def primitives : List (String × Ty) := [
  ("i8", int .w8 true false), ("i16", int .w16 true false), ("i32", int .w32 true false),
  ("i64", int .w64 true false), ("i128", int .w128 true false), ("isize", int .w64 true true),
  ("u8", int .w8 false false), ("u16", int .w16 false false), ("u32", int .w32 false false),
  ("u64", int .w64 false false), ("u128", int .w128 false false), ("usize", int .w64 false true),
  ("bool", bool), ("char", char), ("f32", f32), ("f64", f64), ("str", str), ("()", unit)]

/-- The parts of a text between separators that are not inside brackets, blanks around each part
dropped. A last part that is empty does not count. `part` is the part being read, backwards. -/
def splitTop (separator : Char) : List Char → (depth : Int) → (part : List Char) → List (List Char)
  | [], _, part =>
    let last := Text.strip Text.isBlank part.reverse
    if last.isEmpty then [] else [last]
  | c :: cs, depth, part =>
    let depth := if c == '(' || c == '[' then depth + 1
      else if c == ')' || c == ']' then depth - 1
      else depth
    if c == separator && depth == 0 then
      Text.strip Text.isBlank part.reverse :: splitTop separator cs depth []
    else splitTop separator cs depth (c :: part)

/-- The text between a first and a last character. -/
def between? (opening closing : Char) (cs : List Char) : Option (List Char) :=
  if cs.head? = some opening ∧ cs.getLast? = some closing then some (cs.drop 1).dropLast else none

/-- What follows a start of the text, without blanks. -/
def after? (start : String) (cs : List Char) : Option (List Char) :=
  if start.toList.isPrefixOf cs then some (Text.strip Text.isBlank (cs.drop start.length)) else none

def named (structs : Structs) (name : String) : Except ReadFault Ty :=
  match structs.lookup name with
  | some t => .ok t
  | none => .error (.unknown name)

/-- Reads a type without blanks around it. Each part is shorter than the whole, so the length of the
text is enough fuel. -/
def readFrom (structs : Structs) (cs : List Char) : (fuel : Nat) → Except ReadFault Ty
  | 0 => .error (.unknown (String.ofList cs))
  | fuel + 1 =>
    let text := String.ofList cs
    if let some t := primitives.lookup text then .ok t
    else if let some rest := after? "&mut " cs then do
      return ref (← readFrom structs rest fuel) true
    else if let some rest := after? "&" cs then do
      return ref (← readFrom structs rest fuel) false
    else if let some rest := after? "*const " cs then do
      return rawPtr (← readFrom structs rest fuel) false
    else if let some rest := after? "*mut " cs then do
      return rawPtr (← readFrom structs rest fuel) true
    else if "fn(".toList.isPrefixOf cs then .ok (fnPtr text)
    else if let some inner := between? '[' ']' cs then
      match splitTop ';' inner 0 [] with
      | [] => .error .empty
      | [elem] => do return slice (← readFrom structs elem fuel)
      | elem :: length :: _ => do
        let elem ← readFrom structs elem fuel
        match Text.integer (String.ofList length) with
        | .ok n => return array elem n
        | .error _ => throw (.badLength text)
    else if let some inner := between? '(' ')' cs then do
      return tuple (← (splitTop ',' inner 0 []).mapM fun part => readFrom structs part fuel)
    else named structs text

def read (structs : Structs) (s : String) : Except ReadFault Ty :=
  let cs := Text.strip Text.isBlank s.toList
  readFrom structs cs (cs.length + 1)

end SymExec.Ty

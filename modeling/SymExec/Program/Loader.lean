import SymExec.Intrinsic
import SymExec.Json.Number
import SymExec.Program
import SymExec.Ty.Reader

/-!
# Loading programs

`Program.load` takes the value of a program file to a program, or says which element is wrong and
how. A strict load also checks that locals, jump targets and argument counts fit.
-/
namespace SymExec

inductive Defect where
  | notObject
  | notList
  | structShape
  | fieldShape
  | unknownTypeObject (found : Json)
  | notType (found : Json)
  | unknownType (name : Json)
  | badLength (text : String)
  | notInteger (found : Json)
  | placeShape
  | unknownProjection (found : Json)
  | localRange (index : Int) (count : Nat)
  | blockRange (index : Int) (count : Nat)
  | operandShape
  | unknownOperator (found : Json)
  | rvalueShape
  | unknownRvalue (found : Json)
  | unknownStatement (found : Json)
  | unknownTerminator (found : Json)
  | lengthsDiffer
  | missing (key : String)
  | localsShort (argCount : Int)
  | blockShape
  | noBlocks
  | arity (callee : Json) (expected : Int) (given : Nat)

def Defect.message : Defect → String
  | notObject => "expected an object"
  | notList => "expected a list"
  | structShape => "expected \x7b\"fields\": [...]\x7d"
  | fieldShape => "expected [name, type]"
  | unknownTypeObject found => "unknown type object " ++ found.text
  | notType found => "expected a type, got " ++ found.text
  | unknownType name => "unknown type " ++ name.text
  | badLength text => "bad array length in " ++ Text.quoted text
  | notInteger found => "expected an integer, got " ++ found.text
  | placeShape => "expected a local index or \x7b\"local\": n, ...\x7d"
  | unknownProjection found => "unknown projection " ++ found.text
  | localRange index count => s!"local {index} out of range (function has {count} locals)"
  | blockRange index count => s!"block {index} out of range (function has {count} blocks)"
  | operandShape => "expected \x7b\"copy\": ...\x7d or \x7b\"const\": ..., \"ty\": ...\x7d"
  | unknownOperator found => "unknown operator " ++ found.text
  | rvalueShape => "expected an rvalue object"
  | unknownRvalue found => "unknown rvalue " ++ found.text
  | unknownStatement found => "unknown statement " ++ found.text
  | unknownTerminator found => "unknown terminator " ++ found.text
  | lengthsDiffer => "values and targets differ in length"
  | missing key => "missing " ++ Text.quoted key
  | localsShort argCount => s!"locals must hold the return place and {argCount} parameters"
  | blockShape => "expected \x7b\"statements\": [...], \"terminator\": ...\x7d"
  | noBlocks => "a function needs at least one block"
  | arity callee expected given =>
    callee.display ++ s!" takes {expected} arguments but {given} were given"

inductive LoadError where
  | defect (path : String) (cause : Defect)
  | numeral (cause : Text.NumeralError)
  /-- A value of a shape that no rule covers. -/
  | crash

namespace Loader

abbrev Load := Except LoadError

def reject {α : Type} (path : String) (cause : Defect) : Load α := .error (.defect path cause)

def toInt (v : Json) : Load Int :=
  v.toInt.mapError fun
    | .numeral cause => .numeral cause
    | _ => .crash

def listed (v : Json) : Load (List Json) :=
  match v.listed? with
  | some items => .ok items
  | none => .error .crash

def listedUnder (raw : Json) (key : String) : Load (List Json) :=
  match raw.get? key with
  | some v => listed v
  | none => .ok []

def each {α : Type} (path : String) (f : Json → String → Load α) (items : List Json) :
    Load (List α) :=
  items.zipIdx.mapM fun (item, k) => f item s!"{path}[{k}]"

/-- What a function may refer to. Without limits every integer will do. -/
structure Scope where
  structs : Ty.Structs
  strict : Bool
  numLocals : Nat := 0
  numBlocks : Nat := 0

/-! ## Types -/

mutual

/-- Reads a type. Each nested value is smaller, so the depth of the value is enough fuel. -/
def ty (structs : Ty.Structs) (raw : Json) (path : String) : (fuel : Nat) → Load Ty
  | 0 => reject path (.notType raw)
  | fuel + 1 =>
    match raw with
    | .obj members =>
      match Json.lookup "tuple" members, Json.lookup "struct" members with
      | some items, _ => do
        let items ← listed items
        return .tuple (← each (path ++ ".tuple") (fun t p => ty structs t p fuel) items)
      | none, some name =>
        if (Json.lookup "fields" members).isSome then struct structs name raw path fuel
        else
          match name with
          | .str s => (Ty.named structs s).mapError fun _ => .defect path (.unknownType name)
          | name => if name.isName then reject path (.unknownType name) else .error .crash
      | none, none => reject path (.unknownTypeObject raw)
    | .str s =>
      (Ty.read structs s).mapError fun
        | .unknown name => .defect path (.unknownType (.str name))
        | .badLength text => .defect path (.badLength text)
        | .empty => .crash
    | raw => reject path (.notType raw)

def struct (structs : Ty.Structs) (name raw : Json) (path : String) :
    (fuel : Nat) → Load Ty
  | 0 => reject path .structShape
  | fuel + 1 =>
    match raw.get? "fields" with
    | some (.arr entries) => do
      let fields ← each (path ++ ".fields")
        (fun entry p => match entry with
          | .arr [_, t] => ty structs t p fuel
          | _ => reject p .fieldShape) entries
      return .struct name fields ((raw.get? "drop").getD (.bool false)).truthy
    | _ => reject path .structShape

end

mutual

def depth : Json → Nat
  | .arr items => 1 + depthItems items
  | .obj members => 1 + depthMembers members
  | _ => 0

def depthItems : List Json → Nat
  | [] => 0
  | v :: vs => max (depth v) (depthItems vs)

def depthMembers : List (String × Json) → Nat
  | [] => 0
  | (_, v) :: ms => max (depth v) (depthMembers ms)

end

def readTy (structs : Ty.Structs) (raw : Json) (path : String) : Load Ty :=
  ty structs raw path (2 * depth raw + 2)

def readStruct (structs : Ty.Structs) (name : String) (raw : Json) (path : String) : Load Ty :=
  struct structs (.str name) raw path (2 * depth raw + 2)

def readStructs (raw : Json) : Load Ty.Structs :=
  let declared := (raw.get? "structs").getD .null
  if !declared.truthy then .ok []
  else
    match declared with
    | .obj members =>
      members.foldlM (fun structs (name, raw) => do
        let t ← readStruct structs name raw s!"$.structs.{name}"
        return structs ++ [(name, t)]) []
    | _ => .error .crash

/-! ## Places and operands -/

def under (raw : Json) (key : String) : Json := (raw.get? key).getD .null

def index (raw : Json) (path : String) : Load Int :=
  match raw with
  | .int n => .ok n
  | raw => reject path (.notInteger raw)

def local_ (scope : Scope) (raw : Json) (path : String) : Load Int := do
  let n ← index raw path
  if scope.strict && (n < 0 || scope.numLocals ≤ n) then reject path (.localRange n scope.numLocals)
  else return n

def target (scope : Scope) (raw : Json) (path : String) : Load Int := do
  let n ← index raw path
  if scope.strict && (n < 0 || scope.numBlocks ≤ n) then reject path (.blockRange n scope.numBlocks)
  else return n

def projection (scope : Scope) (raw : Json) (path : String) : Load Projection :=
  match raw with
  | .str "deref" => .ok .deref
  | raw =>
    match raw.get? "field", raw.get? "const_index", raw.get? "index" with
    | some i, _, _ => return .field (← toInt i)
    | none, some i, _ => return .constIndex (← toInt i)
    | none, none, some i => return .index (← local_ scope i path)
    | none, none, none => reject path (.unknownProjection raw)

/-- Reads a place: a local, or an object with a local and projections. -/
def place (scope : Scope) (raw : Json) (path : String) : Load Place :=
  match raw with
  | .int _ => return ⟨← local_ scope raw path, []⟩
  | raw =>
    match raw.get? "local" with
    | none => reject path .placeShape
    | some base => do
      let projections ← each (path ++ ".projections") (projection scope)
        (← listedUnder raw "projections")
      return ⟨← local_ scope base (path ++ ".local"), projections⟩

def operand (scope : Scope) (raw : Json) (path : String) : Load Operand :=
  match raw.get? "copy", raw.get? "const" with
  | some p, _ => return .copy (← place scope p (path ++ ".copy"))
  | none, some value =>
    return .constant value (← readTy scope.structs (under raw "ty") (path ++ ".ty"))
  | none, none => reject path .operandShape

/-! ## Rvalues, statements and terminators -/

def binOp (raw : Json) (path : String) : Load BinOp :=
  match raw with
  | .str s => match BinOp.ofName? s with
    | some op => .ok op
    | none => reject path (.unknownOperator raw)
  | raw => reject path (.unknownOperator raw)

def unOp (raw : Json) (path : String) : Load UnOp :=
  match raw with
  | .str s => match UnOp.ofName? s with
    | some op => .ok op
    | none => reject path (.unknownOperator raw)
  | raw => reject path (.unknownOperator raw)

/-- Reads what is assigned; the first key that is known decides. -/
def rvalue (scope : Scope) (raw : Json) (path : String) : Load Rvalue :=
  let operandAt := fun key => operand scope (under raw key) s!"{path}.{key}"
  match raw with
  | .obj members =>
    let has := fun key => (Json.lookup key members).isSome
    if has "use" then return .use (← operandAt "use")
    else if has "binary" then do
      let op ← binOp (under raw "binary") (path ++ ".binary")
      return .binary op (← operandAt "lhs") (← operandAt "rhs")
    else if has "checked" then do
      let op ← binOp (under raw "checked") (path ++ ".checked")
      return .checked op (← operandAt "lhs") (← operandAt "rhs")
    else if has "unary" then do
      let op ← unOp (under raw "unary") (path ++ ".unary")
      return .unary op (← operandAt "operand")
    else if has "cast" then do
      let source ← operandAt "cast"
      return .cast source (← readTy scope.structs (under raw "ty") (path ++ ".ty"))
    else if has "ref" then do
      let p ← place scope (under raw "ref") (path ++ ".ref")
      return .ref p ((raw.get? "mutable").getD (.bool false)).truthy
    else if has "len" then return .len (← place scope (under raw "len") (path ++ ".len"))
    else reject path (.unknownRvalue raw)
  | _ => reject path .rvalueShape

def statement (scope : Scope) (raw : Json) (path : String) : Load Statement :=
  match raw with
  | .str "nop" => .ok .nop
  | raw =>
    match raw.get? "assign" with
    | some p => do
      let p ← place scope p (path ++ ".assign")
      return .assign p (← rvalue scope (under raw "rvalue") (path ++ ".rvalue"))
    | none => reject path (.unknownStatement raw)

def switch (scope : Scope) (raw discr : Json) (path : String) : Load Terminator := do
  let values ← listedUnder raw "values"
  let targets ← listedUnder raw "targets"
  if values.length ≠ targets.length then reject path .lengthsDiffer
  let discr ← operand scope discr (path ++ ".switch_int")
  let values ← values.mapM toInt
  let targets ← each (path ++ ".targets") (target scope) targets
  let otherwise ← target scope (under raw "otherwise") (path ++ ".otherwise")
  return .switch discr values targets otherwise

def assertion (scope : Scope) (raw cond : Json) (path : String) : Load Terminator := do
  let cond ← operand scope cond (path ++ ".assert")
  let expected := ((raw.get? "expected").getD (.bool true)).truthy
  let next ← target scope (under raw "target") (path ++ ".target")
  return .assert cond expected next ((raw.get? "message").getD (.str "assertion failed"))

def call (scope : Scope) (raw callee : Json) (path : String) : Load Terminator := do
  let args ← each (path ++ ".args") (operand scope) (← listedUnder raw "args")
  let dest ← match under raw "destination" with
    | .null => pure none
    | p => do pure (some (← place scope p (path ++ ".destination")))
  let next ← match under raw "target" with
    | .null => pure none
    | t => do pure (some (← target scope t (path ++ ".target")))
  let typeArgs ← each (path ++ ".type_args") (readTy scope.structs) (← listedUnder raw "type_args")
  return .call ⟨callee, args, dest, next, typeArgs⟩

/-- Reads a terminator; the first key that is known decides. -/
def terminator (scope : Scope) (raw : Json) (path : String) : Load Terminator :=
  match raw with
  | .str "return" => .ok .ret
  | .str "abort" => .ok .abort
  | .str "unreachable" => .ok .unreachable
  | raw =>
    match raw.get? "goto", raw.get? "switch_int", raw.get? "assert", raw.get? "call" with
    | some t, _, _, _ => return .goto (← target scope t (path ++ ".goto"))
    | none, some discr, _, _ => switch scope raw discr path
    | none, none, some cond, _ => assertion scope raw cond path
    | none, none, none, some callee => call scope raw callee path
    | none, none, none, none => reject path (.unknownTerminator raw)

/-! ## Functions -/

def block (scope : Scope) (raw : Json) (path : String) : Load Block :=
  match raw.get? "terminator" with
  | none => reject path .blockShape
  | some last => do
    let statements ← each (path ++ ".statements") (statement scope) (← listedUnder raw "statements")
    return ⟨statements, ← terminator scope last (path ++ ".terminator")⟩

def function (structs : Ty.Structs) (strict : Bool) (raw : Json) (path : String) :
    Load Function :=
  match raw with
  | .obj members => do
    for key in ["name", "locals", "blocks"] do
      if (Json.lookup key members).isNone then reject path (.missing key)
    let locals ← each (path ++ ".locals") (readTy structs) (← listed (under raw "locals"))
    let argCount ← toInt ((raw.get? "arg_count").getD (.int 0))
    if locals.isEmpty || locals.length ≤ argCount then reject path (.localsShort argCount)
    match under raw "blocks" with
    | .arr items =>
      let scope : Scope := ⟨structs, strict, locals.length, items.length⟩
      let blocks ← each (path ++ ".blocks") (block scope) items
      if blocks.isEmpty then reject path .noBlocks
      return ⟨under raw "name", locals, argCount, blocks⟩
    | _ => reject (path ++ ".blocks") .notList
  | _ => reject path .notObject

/-- The number of arguments that a callee takes, if it is known. -/
def calleeArity (program : Program) (callee : Json) : Load (Option Int) :=
  match program.find? callee with
  | some f => .ok (some f.argCount)
  | none =>
    match Builtin.ofName? callee, callee with
    | some b, _ => .ok (b.arity?.map Int.ofNat)
    | none, .str s => .ok ((Intrinsic.ofName? s).map fun i => (i.arity : Int))
    | none, _ => .error .crash

/-- Checks the number of arguments of a call. Unknown callees fail when they are called. -/
def checkCall (program : Program) (c : Call) (path : String) : Load Unit := do
  match ← calleeArity program c.callee with
  | some expected =>
    if (c.args.length : Int) ≠ expected then reject path (.arity c.callee expected c.args.length)
  | none => return ()

def checkCalls (program : Program) (f : Function) (path : String) : Load Unit :=
  f.blocks.zipIdx.forM fun (b, k) =>
    match b.terminator with
    | .call c => checkCall program c s!"{path}.blocks[{k}].terminator"
    | _ => .ok ()

end Loader

open Loader in
def Program.load (raw : Json) (strict : Bool) : Except LoadError Program :=
  match raw with
  | .obj _ => do
    let structs ← readStructs raw
    match raw.get? "functions" with
    | some (.arr items) =>
      let functions ← items.zipIdx.mapM fun (item, k) => do
        let f ← function structs strict item s!"$.functions[{k}]"
        if f.name.isName then return f else throw .crash
      let program := functions.foldl Program.add ⟨[]⟩
      if strict then
        functions.zipIdx.forM fun (f, k) => checkCalls program f s!"$.functions[{k}]"
      return program
    | _ => reject "$.functions" .notList
  | _ => reject "$" .notObject

/-- A load error in words; there are none for a value of a shape that no rule covers. -/
def LoadError.message? : LoadError → Option String
  | defect path cause => some s!"{path}: {cause.message}"
  | numeral cause => some cause.message
  | crash => none

end SymExec

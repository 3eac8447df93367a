import SymExec.Store.Derive

/-!
# Memory

Memory is a list of allocations. An allocation holds byte cells, says of each byte whether it is
defined, and records where pointers are stored. A pointer is an allocation and an offset, so two
pointers can name the same byte.

Accesses are checked for bounds and alignment. A stored pointer can only be read as a whole, at its
own offset.
-/
namespace SymExec

-- powers and the zero that sums start from are those of core, also where others are in scope
attribute [local instance(2000)] instPowNat Zero.ofOfNat0

inductive Region where
  | stack | heap | static | abstract
  deriving DecidableEq, Repr

def Region.label : Region → String
  | stack => "stack"
  | heap => "heap"
  | static => "static"
  | abstract => "abstract"

structure Allocation where
  cells : List Cell
  defined : List Bool
  align : Nat
  region : Region
  relocations : List (Nat × Pointer) := []
  /-- Ranges (offset, size) in which alignment is not checked. -/
  packed : List (Nat × Int) := []

namespace Allocation

def size (a : Allocation) : Nat := a.cells.length

/-- Whether a pointer stored at `offset` has bytes in the range. -/
def overlaps (start stop : Int) (offset : Nat) : Bool :=
  (offset : Int) < stop && start < offset + pointerSize

/-- The offsets of the stored pointers that have bytes in the range. -/
def relocationsIn (a : Allocation) (start stop : Int) : List Nat :=
  (a.relocations.map Prod.fst).filter (overlaps start stop)

/-- Forgets the stored pointers that have bytes in the range. -/
def clear (a : Allocation) (start stop : Int) : Allocation :=
  { a with relocations := a.relocations.filter fun r => !overlaps start stop r.1 }

/-- Stores a pointer; its bytes are taken to be zero. -/
def relocate (a : Allocation) (offset : Nat) (p : Pointer) : Allocation :=
  { a with relocations := a.relocations.filter (fun r => r.1 != offset) ++ [(offset, p)] }

/-- Overwrites bytes, which are defined from then on. -/
def write (a : Allocation) (offset : Nat) (cells : List Cell) : Allocation :=
  let stop := offset + cells.length
  let a := a.clear offset stop
  { a with
    cells := Section.splice a.cells offset stop cells
    defined := Section.splice a.defined offset stop (List.replicate cells.length true) }

def mark (a : Allocation) (offset : Nat) (size : Int) (defined : Bool) : Allocation :=
  let a := if defined then a else a.clear offset (offset + size)
  { a with
    defined := Section.splice a.defined offset (offset + size)
      (List.replicate size.toNat defined) }

def definedIn (a : Allocation) (start stop : Int) : Bool :=
  (Section.slice a.defined start stop).all id

/-- Whether an access in the range is exempt from alignment. -/
def isPacked (a : Allocation) (offset : Nat) (size : Int) : Bool :=
  a.packed.any fun (start, length) => start ≤ offset && offset + size ≤ start + length

end Allocation

/-- The live allocations, and the store that knows their symbolic bytes. -/
structure Memory where
  limit : Int
  /-- The bytes that are allocated. -/
  usage : Int := 0
  /-- The live allocations, in the order of their numbers. -/
  allocs : List (Nat × Allocation) := []
  next : Nat := 1
  store : Store := {}
  /-- The allocation that holds the symbolic input. -/
  root : Option Nat := none

namespace Memory

def onStore {α : Type} (act : Run Store α) : Run Memory α := fun m =>
  match act m.store with
  | .ok a s => .ok a { m with store := s }
  | .error e s => .error e { m with store := s }

def find? (m : Memory) (id : Nat) : Option Allocation := m.allocs.lookup id

def isLive (m : Memory) (id : Nat) : Bool := (m.find? id).isSome

def get (m : Memory) (id : Nat) : Except EvalError Allocation :=
  match m.find? id with
  | some a => .ok a
  | none => .error (.dead id)

def update (id : Nat) (f : Allocation → Allocation) (m : Memory) : Memory :=
  { m with allocs := m.allocs.map fun (k, a) => if k = id then (k, f a) else (k, a) }

/-- The bytes held by live allocations that are not static. -/
def leaked (m : Memory) : Nat :=
  ((m.allocs.filter fun (_, a) => a.region != .static).map fun (_, a) => a.size).sum

/-! ## Allocation -/

/-- The most cells that can be made at once. -/
def maxCells : Nat := 2 ^ (32 : Nat)

def isPowerOfTwo (n : Int) : Bool := 0 < n && n.toNat &&& (n.toNat - 1) == 0

/-- A new allocation of undefined bytes. -/
def allocate (size align : Int) (region : Region) : Run Memory Pointer := do
  let m ← getThe Memory
  if !isPowerOfTwo align then Run.fail (.invalidAlignment align)
  let free := m.limit - m.usage
  if free < size then Run.failReporting [size, free] (.memoryLimit size free)
  set { m with next := m.next + 1 }
  if maxCells ≤ size then throw .crash
  let n := size.toNat
  let a : Allocation :=
    ⟨List.replicate n (.known 0), List.replicate n false, align.toNat, region, [], []⟩
  modify fun m' => { m' with allocs := m.allocs ++ [(m.next, a)], usage := m.usage + size }
  return .known m.next 0

/-- Gives an allocation contents, all defined. -/
def fillWith (id : Nat) (cells : List Cell) : Run Memory Unit :=
  modify (update id fun a =>
    { a with cells := cells, defined := List.replicate cells.length true })

/-- A new allocation of fresh symbolic bytes. -/
def allocateAbstract (size align : Int) : Run Memory Pointer := do
  let p ← allocate size align .abstract
  fillWith p.alloc (← onStore (Store.fresh size))
  return p

/-- A new allocation of known bytes that cannot be freed. -/
def allocateStatic (data : List (BitVec 8)) : Run Memory Pointer := do
  let p ← allocate data.length 1 .static
  fillWith p.alloc (data.map Cell.known)
  return p

/-- Frees an allocation, which must be of the region if one is given. -/
def deallocate (p : Pointer) (region : Option Region) : Run Memory Unit := do
  match p with
  | .known id 0 =>
    let m ← getThe Memory
    match m.find? id with
    | none => Run.fail (.freeDead id)
    | some a =>
      if a.region = .static then Run.fail .freeStatic
      if let some r := region then
        if a.region ≠ r then Run.fail (.freeKind a.region.label r.label)
      set { m with allocs := m.allocs.filter (fun (k, _) => k != id), usage := m.usage - a.size }
  | _ => Run.fail .notStart

/-! ## Checks -/

/-- The allocation and offset of an access, if it is within bounds and aligned. -/
def checked (m : Memory) (p : Pointer) (size align : Int) :
    Except EvalError (Nat × Nat × Allocation) :=
  match p with
  | .symbolic _ _ => .error .symbolicAccess
  | .known id offset => do
    let a ← m.get id
    if (a.size : Int) < offset + size then throw (.accessOutside size id offset a.size)
    if 1 < align && !a.isPacked offset size && (a.align < align || offset % align ≠ 0) then
      throw (.misaligned id offset align)
    return (id, offset, a)

def markPacked (p : Pointer) (size : Int) : Run Memory Unit := do
  let (id, offset, _) ← (← getThe Memory).checked p size 1
  modify (update id fun a => { a with packed := a.packed ++ [(offset, size)] })

/-! ## Bytes -/

/-- Cells that are defined and no part of a pointer. -/
def readBytes (m : Memory) (p : Pointer) (size align : Int) : Except EvalError (List Cell) := do
  if size = 0 then return []
  let (_, offset, a) ← m.checked p size align
  if !(a.relocationsIn offset (offset + size)).isEmpty then throw .pointerAsBytes
  if !a.definedIn offset (offset + size) then throw .undefinedRead
  return Section.slice a.cells offset (offset + size)

def writeBytes (p : Pointer) (cells : List Cell) (align : Int) : Run Memory Unit := do
  if cells.isEmpty then return
  let (id, offset, _) ← (← getThe Memory).checked p cells.length align
  modify (update id fun a => a.write offset cells)

def writeRepeat (p : Pointer) (cell : Cell) (count align : Int) : Run Memory Unit := do
  if maxCells ≤ count then throw .crash
  if count ≤ 0 then return
  let (id, offset, _) ← (← getThe Memory).checked p count align
  modify (update id fun a => a.write offset (List.replicate count.toNat cell))

def markDefinedness (p : Pointer) (size : Int) (defined : Bool) : Run Memory Unit := do
  if size = 0 then return
  let (id, offset, _) ← (← getThe Memory).checked p size 1
  modify (update id fun a => a.mark offset size defined)

def makeSymbolic (p : Pointer) (size : Int) : Run Memory Unit := do
  let cells ← onStore (Store.fresh size)
  writeBytes p cells 1

/-- Copies cells, their definedness and the pointers that lie in the range. All is read before
anything is written. -/
def copyBytes (source dest : Pointer) (size align : Int) : Run Memory Unit := do
  if size = 0 then return
  let m ← getThe Memory
  let (_, start, a) ← m.checked source size align
  let (id, offset, _) ← m.checked dest size align
  let stop := start + size
  let cells := Section.slice a.cells start stop
  let defined := Section.slice a.defined start stop
  let moved := a.relocations.filter fun (o, _) => start ≤ o && (o : Int) + pointerSize ≤ stop
  modify (update id fun b =>
    let b := b.clear offset (offset + size)
    let b := { b with
      cells := Section.splice b.cells offset (offset + size) cells
      defined := Section.splice b.defined offset (offset + size) defined }
    moved.foldl (fun b (o, target) => b.relocate (offset + (o - start)) target) b)

/-! ## Primitive values -/

/-- Reads a primitive value. Undefined bytes give an undefined value; a stored pointer, read as a
whole at its own offset, gives the pointer. -/
def readScalar (m : Memory) (p : Pointer) (size : Int) (kind : Kind) (align : Int) :
    Except EvalError Scalar := do
  let (_, offset, a) ← m.checked p size align
  match a.relocationsIn offset (offset + size) with
  | [] =>
    if !a.definedIn offset (offset + size) then return .undef
    return .ofCells (Section.slice a.cells offset (offset + size)) kind
  | found =>
    match a.relocations.lookup offset with
    | some target =>
      if found = [offset] ∧ size = pointerSize then return .ptr target else throw .pointerAsBytes
    | none => throw .pointerAsBytes

def writeScalar (p : Pointer) (v : Scalar) (size align : Int) : Run Memory Unit := do
  let (id, offset, _) ← (← getThe Memory).checked p size align
  match v with
  | .undef => markDefinedness p size false
  | .ptr target =>
    if size ≠ pointerSize then Run.fail .pointerAsBytes
    writeBytes p (List.replicate pointerSize (.known 0)) 1
    modify (update id fun a => a.relocate offset target)
  | .cells list =>
    if list.length ≠ size then Run.fail (.slotWidth list.length size)
    writeBytes p list 1
  | .bits pattern =>
    if size < 0 then throw (.numeral .negativeWidth)
    writeBytes p (Cell.ofNat pattern.toNat size.toNat) 1

end Memory
end SymExec

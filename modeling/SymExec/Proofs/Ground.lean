import SymExec.Proofs.Arithmetic
import SymExec.Proofs.Contents
import Mathlib.Data.List.Forall2

/-!
# Known bytes in the place of symbolic ones

Under values `v` of the symbolic bytes, `ground v` puts known bytes in the place of symbolic ones:
in cells, in the offsets of pointers, in allocations, memories, frames and machines. A primitive
value that is made of symbolic bytes has no single known counterpart, since a pattern is kept
sign-extended or not as its kind says: `Scalar.Agrees v` relates it to every pattern whose low bytes
are the ones that its cells have.
-/
namespace SymExec

open Section List

variable {n offset : Nat} {size : Int}

namespace Cell

def ground (v : Valuation) (c : Cell) : Cell := known (c.eval v)

variable {v : Valuation} {cs : List Cell}

@[simp] theorem valueOf_ground (v' : Valuation) : valueOf v' (cs.map (ground v)) = valueOf v cs := by
  induction cs with
  | nil => rfl
  | cons c cs ih => simp [valueOf, ground, ih]

@[simp] theorem symbols_ground : symbols (cs.map (ground v)) = [] := by
  induction cs with
  | nil => rfl
  | cons c cs ih => simpa [ground] using ih

theorem ground_of_symbols_eq_nil (h : symbols cs = []) : cs.map (ground v) = cs := by
  induction cs with
  | nil => rfl
  | cons c cs ih =>
    cases c with
    | known b => rw [map_cons, ih h, ground, eval_known]
    | symbol i => cases h

/-- The low bytes of a number that ends in the value of cells are the values of the cells. -/
theorem ofNat_eq_ground (h : n % 256 ^ cs.length = valueOf v cs) :
    ofNat n cs.length = cs.map (ground v) := by
  induction cs generalizing n with
  | nil => rfl
  | cons c cs ih =>
    have hc := (c.eval v).isLt
    rw [length_cons, Nat.pow_succ', Nat.mod_mul] at h
    have hlow : n % 256 = (c.eval v).toNat := by
      have := congrArg (· % 256) h
      simp only [valueOf, Nat.add_mul_mod_self_left, Nat.mod_mod] at this
      omega
    have hhigh : n / 256 % 256 ^ cs.length = valueOf v cs := by
      rw [valueOf] at h
      omega
    rw [length_cons, ofNat, ih hhigh, map_cons, ground]
    congr 2
    apply BitVec.eq_of_toNat_eq
    rw [BitVec.toNat_ofNat]
    exact hlow

@[simp] theorem symbols_reverse : symbols cs.reverse = (symbols cs).reverse := by
  simp [symbols, filterMap_reverse]

end Cell

/-! ## Primitive values -/

def Scalar.low (v : Valuation) : Scalar → BitVec 64
  | bits p => p.setWidth 64
  | cells list => BitVec.ofNat 64 (Cell.valueOf v list)
  | _ => 0

def Pointer.ground (v : Valuation) : Pointer → Pointer
  | known a o => known a o
  | symbolic a o => known a (o.low v).toNat

theorem Pointer.exists_ground (v : Valuation) (p : Pointer) :
    ∃ offset, p.ground v = known p.alloc offset := by
  cases p <;> exact ⟨_, rfl⟩

namespace Scalar

variable {kind : Kind} {list : List Cell}

/-- The second value is what the first one is under `v`. The cells of a symbolic value are not all
known. -/
inductive Agrees (v : Valuation) : Scalar → Scalar → Prop where
  | bits (p : BitVec 128) : Agrees v (.bits p) (.bits p)
  | ptr (p : Pointer) : Agrees v (.ptr p) (.ptr (p.ground v))
  | undef : Agrees v .undef .undef
  | cells {list : List Cell} {p : BitVec 128} (hsymbols : Cell.symbols list ≠ [])
    (hlow : p.toNat % 256 ^ list.length = Cell.valueOf v list) : Agrees v (.cells list) (.bits p)

theorem pow_numBytes (kind : Kind) : 256 ^ kind.numBytes = 2 ^ kind.bits := by
  rw [Kind.bits, Nat.pow_mul]

theorem toNat_ofBits {p : BitVec 128} (h : ofBits n kind = .bits p) :
    p.toNat % 256 ^ kind.numBytes = n % 256 ^ kind.numBytes := by
  have := congrArg BitVec.toNat (setWidth_of_ofBits h)
  rwa [BitVec.toNat_setWidth, BitVec.ofInt_natCast, BitVec.toNat_ofNat, ← pow_numBytes] at this

theorem ofCells_ground (v : Valuation) (cs : List Cell) (kind : Kind) :
    ofCells (cs.map (Cell.ground v)) kind = ofBits (Cell.valueOf v cs) kind := by
  simp [ofCells]

theorem length_of_ofCells {cs : List Cell} (h : ofCells cs kind = .cells list) :
    list.length = cs.length := by
  unfold ofCells at h
  split at h
  · cases h
  · cases h
    rfl

namespace Agrees

variable {v : Valuation}

theorem ofBits (n : Int) (kind : Kind) : Agrees v (ofBits n kind) (ofBits n kind) := .bits _

theorem ofBool (b : Bool) : Agrees v (ofBool b) (ofBool b) := .bits _

theorem ofInt (n : Int) : Agrees v (ofInt n) (ofInt n) := .bits _

theorem ofNat (n : Nat) : Agrees v (ofNat n) (ofNat n) := .bits _

theorem ofDouble (n : Nat) (kind : Kind) : Agrees v (ofDouble n kind) (ofDouble n kind) := by
  unfold Scalar.ofDouble
  split <;> exact .bits _

theorem cells_ofBits (h : list.length = kind.numBytes) (hsymbols : Cell.symbols list ≠ []) :
    Agrees v (.cells list) (.ofBits (Cell.valueOf v list) kind) := by
  refine .cells hsymbols ?_
  rw [h, toNat_ofBits rfl, ← h, Nat.mod_eq_of_lt (Cell.valueOf_lt v list)]

theorem ofCells (h : list.length = kind.numBytes) :
    Agrees v (.ofCells list kind) (.ofBits (Cell.valueOf v list) kind) := by
  unfold Scalar.ofCells
  split
  case isTrue hempty =>
    have hnone : Cell.symbols list = [] := by simpa using hempty
    have hsame : Cell.valueOf (fun _ => 0) list = Cell.valueOf v list :=
      Cell.valueOf_congr (by simp [hnone])
    rw [hsame]
    exact .ofBits _ kind
  case isFalse hempty => exact cells_ofBits h (by simpa using hempty)

end Agrees
end Scalar

/-! ## Sections -/

namespace Section

variable {α : Type} (xs : List α) {start : Nat}

theorem resolve_of_le {length : Nat} {bound : Int} (hpos : 0 ≤ bound) (hle : bound ≤ length) :
    resolve length bound = bound.toNat := by
  rw [resolve, if_neg (by omega)]
  omega

theorem length_slice (hpos : 0 ≤ size) (hle : (start : Int) + size ≤ xs.length) :
    (slice xs start (start + size)).length = size.toNat := by
  have hstart : resolve xs.length start = start := resolve_of_le (by omega) (by omega)
  rw [slice, hstart, resolve_of_le (by omega) hle, length_take, length_drop]
  omega

/-- Items put back where they came from. -/
theorem splice_slice (hpos : 0 ≤ size) (hle : (start : Int) + size ≤ xs.length) :
    splice xs start (start + size) (slice xs start (start + size)) = xs := by
  have hstart : resolve xs.length start = start := resolve_of_le (by omega) (by omega)
  have hstop : resolve xs.length (start + size) = start + size.toNat := by
    rw [resolve_of_le (by omega) hle]
    omega
  simp only [splice, slice, hstart, hstop]
  rw [Nat.max_eq_right (Nat.le_add_right _ _), Nat.add_sub_cancel_left, append_assoc,
    ← drop_drop, take_append_drop, take_append_drop]

end Section

/-! ## Memory -/

namespace Allocation

def ground (v : Valuation) (a : Allocation) : Allocation :=
  { a with
    cells := a.cells.map (Cell.ground v)
    relocations := a.relocations.map fun (offset, p) => (offset, p.ground v) }

variable (v : Valuation) (a : Allocation)

@[simp] theorem size_ground : (a.ground v).size = a.size := a.size_map _ _

@[simp] theorem relocationsIn_ground (start stop : Int) :
    (a.ground v).relocationsIn start stop = a.relocationsIn start stop :=
  a.relocationsIn_map _ _ start stop

@[simp] theorem lookup_ground (offset : Nat) :
    (a.ground v).relocations.lookup offset = (a.relocations.lookup offset).map (Pointer.ground v) :=
  a.lookup_map _ _ offset

@[simp] theorem relocate_ground (offset : Nat) (p : Pointer) :
    (a.ground v).relocate offset (p.ground v) = (a.relocate offset p).ground v :=
  a.relocate_map (Cell.ground v) (Pointer.ground v) offset p

@[simp] theorem write_ground (offset : Nat) (cells : List Cell) :
    (a.ground v).write offset (cells.map (Cell.ground v)) = (a.write offset cells).ground v :=
  a.write_map (Cell.ground v) (Pointer.ground v) offset cells

@[simp] theorem mark_ground (offset : Nat) (size : Int) (defined : Bool) :
    (a.ground v).mark offset size defined = (a.mark offset size defined).ground v :=
  a.mark_map _ _ offset size defined

@[simp] theorem definedIn_ground (start stop : Int) :
    (a.ground v).definedIn start stop = a.definedIn start stop := rfl

/-- Bytes that are put back where they came from, defined and free of pointers, change nothing. -/
theorem write_slice (hpos : 0 ≤ size) (hle : (offset : Int) + size ≤ a.size)
    (hlength : a.defined.length = a.cells.length)
    (hfree : a.relocationsIn offset (offset + size) = [])
    (hdefined : a.definedIn offset (offset + size)) :
    a.write offset (slice a.cells offset (offset + size)) = a := by
  have hlen : (slice a.cells offset (offset + size)).length = size.toNat :=
    length_slice _ hpos hle
  have hcast : ((offset + size.toNat : Nat) : Int) = offset + size := by omega
  have htrue : replicate size.toNat true = slice a.defined offset (offset + size) := by
    symm
    rw [eq_replicate_iff, length_slice _ hpos (by rwa [hlength])]
    exact ⟨rfl, by simpa [definedIn] using hdefined⟩
  have hclear : a.clear offset (offset + size) = a := by
    rw [relocationsIn, filter_eq_nil_iff] at hfree
    have hkept : a.relocations.filter (fun r => !overlaps offset (offset + size) r.1)
        = a.relocations := by
      rw [filter_eq_self]
      intro r hr
      simpa using hfree r.1 (mem_map_of_mem hr)
    rw [clear, hkept]
  simp only [write, hlen, hcast]
  rw [hclear, splice_slice _ hpos hle, htrue,
    splice_slice _ hpos (by rwa [hlength])]

end Allocation

namespace Memory

variable {align : Int} {p : Pointer} {a : Allocation}

def ground (v : Valuation) (s0 : Store) (m : Memory) : Memory :=
  { m with allocs := m.allocs.map fun (k, a) => (k, a.ground v), store := s0 }

def Marked (m : Memory) : Prop := ∀ x ∈ m.allocs, x.2.defined.length = x.2.cells.length

variable {v : Valuation} {s0 : Store} {m : Memory}

@[simp] theorem find?_ground (id : Nat) :
    (m.ground v s0).find? id = (m.find? id).map (Allocation.ground v) :=
  find?_map id

theorem get_ground {id : Nat} (h : m.get id = .ok a) :
    (m.ground v s0).get id = .ok (a.ground v) := by
  refine (get_map id).trans ?_
  rw [h]
  rfl

theorem update_ground (id : Nat) {f f' : Allocation → Allocation}
    (h : ∀ a, f' (a.ground v) = (f a).ground v) :
    (m.ground v s0).update id f' = (m.update id f).ground v s0 :=
  update_map id h

theorem checked_eq_ok {id : Nat} (h : m.checked p size align = .ok (id, offset, a)) :
    p = .known id offset ∧ m.find? id = some a ∧ (offset : Int) + size ≤ a.size := by
  cases p with
  | symbolic _ _ => cases h
  | known id' offset' =>
    obtain ⟨a', ha, h⟩ := Run.bind_iff.1 h
    simp only [bind, Except.bind, pure, Except.pure, throw, throwThe, MonadExceptOf.throw] at h
    split at h
    · cases h
    · split at h
      · cases h
      · cases h
        exact ⟨rfl, get_eq_ok.1 ha, by omega⟩

/-- An access is checked without a look at the bytes. -/
theorem checked_ground {id : Nat} (h : m.checked p size align = .ok (id, offset, a)) :
    (m.ground v s0).checked (p.ground v) size align = .ok (id, offset, a.ground v) := by
  obtain ⟨rfl, -, -⟩ := checked_eq_ok h
  refine (checked_map (.known id offset) size align).trans ?_
  rw [h]
  rfl

end Memory

/-! ## Machines -/

def Frame.ground (v : Valuation) (f : Frame) : Frame :=
  { f with
    locals := f.locals.map (Pointer.ground v)
    returnPtr := f.returnPtr.map (Pointer.ground v) }

/-- The machine with known bytes, and with a given store. -/
def Machine.ground (v : Valuation) (s0 : Store) (m : Machine) : Machine :=
  { m with memory := m.memory.ground v s0, stack := m.stack.map (Frame.ground v) }

/-- Where the frames stand, the innermost one first. -/
def Machine.positions (m : Machine) : List (Json × Int × Nat) :=
  m.stack.map fun f => (f.function.name, f.block, f.stmt)

@[simp] theorem Machine.positions_ground (v : Valuation) (s0 : Store) (m : Machine) :
    (m.ground v s0).positions = m.positions := by
  simp [positions, ground, Frame.ground, Function.comp_def]

/-- Operands: the second one is what the first one is under `v`. -/
inductive Value.Agrees (v : Valuation) : Value → Value → Prop where
  | one {a a' : Scalar} (h : a.Agrees v a') : Agrees v (.one a) (.one a')
  | pair {a a' b b' : Scalar} (ha : a.Agrees v a') (hb : b.Agrees v b') :
    Agrees v (.pair a b) (.pair a' b')
  | inMemory (p : Pointer) : Agrees v (.inMemory p) (.inMemory (p.ground v))

/-- Operands with their types. One that is made of symbolic bytes has as many as its type has. -/
inductive Arg.Agrees (v : Valuation) : Arg → Arg → Prop where
  | intro {a a' : Value} (ty : Ty) (h : a.Agrees v a')
    (hlength : ∀ list kind, a = .one (.cells list) → ty.kind = .ok kind →
      list.length = kind.numBytes) : Agrees v ⟨a, ty⟩ ⟨a', ty⟩

inductive PlaceRef.Agrees (v : Valuation) : PlaceRef → PlaceRef → Prop where
  | intro (p : Pointer) (ty : Ty) {length length' : Option Scalar}
    (h : Option.Rel (Scalar.Agrees v) length length') :
    Agrees v ⟨p, ty, length⟩ ⟨p.ground v, ty, length'⟩

end SymExec

import SymExec.Proofs.Casting
import SymExec.Proofs.Mirror.Memory

/-!
# Operations on memory and the values of symbolic bytes

Under values `v` of the symbolic bytes, `Memory.concrete v` puts the byte that a symbolic byte stands
for in its place, and `Scalar.concrete v kind` makes a symbolic value of a kind the value that its bytes
spell. `Memory.concrete_commutes`: an operation on the concrete memory does what concretisation makes
of the operation on the symbolic one. It raises the same error or leaves the concrete form of the
memory that the operation leaves, and reads the concrete form of what the operation reads.
-/
namespace SymExec

open Run

mutual

def Pointer.concrete (v : Valuation) : Pointer → Pointer
  | .known a o => .known a o
  | .symbolic a o => .atOffset a (o.concrete v .u64)

/-- What a value of a kind is under values of the symbolic bytes, those in the offset of a pointer too. -/
def Scalar.concrete (v : Valuation) (kind : Kind) : Scalar → Scalar
  | .bits p => .bits p
  | .ptr p => .ptr (p.concrete v)
  | .undef => .undef
  | .cells list => .ofCells (list.map (Cell.ground v)) kind

end

namespace Scalar

variable {v : Valuation} {kind : Kind}

/-- A value that is no pointer has symbolic bytes only in its cells. -/
theorem concrete_eq_under {a : Scalar} (h : a.isPtr = false) :
    a.concrete v kind = a.under v kind := by
  cases a with
  | cells list => rw [concrete, ofCells_ground, under]
  | ptr p => cases h
  | bits | undef => rfl

theorem concrete_ofCells (list : List Cell) :
    (ofCells list kind).concrete v kind = ofCells (list.map (Cell.ground v)) kind := by
  have hptr : (ofCells list kind).isPtr = false := by
    unfold ofCells
    split <;> rfl
  rw [concrete_eq_under hptr, under_ofCells, ofCells_ground]

theorem concrete_cells {list : List Cell} (hlength : list.length = kind.numBytes) : ∃ p,
    (cells list).concrete v kind = .bits p ∧
      Cell.ofNat p.toNat list.length = list.map (Cell.ground v) := by
  refine ⟨_, by rw [concrete_eq_under rfl, under, ofBits], Cell.ofNat_eq_ground ?_⟩
  rw [hlength, toNat_ofBits rfl, ← hlength, Nat.mod_eq_of_lt (Cell.valueOf_lt v list)]

end Scalar

namespace Memory

/-- The memory in which every symbolic byte has its value. -/
def concrete (v : Valuation) (m : Memory) : Memory :=
  m.map (Cell.ground v) (Pointer.concrete v) m.store

variable {v : Valuation} {m : Memory}

/-- What leaves the store alone commutes once it does with the store held fixed. -/
theorem commutes_concrete {act act' : Run Memory Unit} (hstore : Keeps SameStore act)
    (h : Commutes id (map (Cell.ground v) (Pointer.concrete v) m.store) act act' m) :
    Commutes id (concrete v) act act' m := by
  have hsame := hstore m
  unfold Commutes at h ⊢
  refine Eq.trans h ?_
  cases hend : act m with
  | ok a m' =>
    rw [final_of_ok hend] at hsame
    rw [mapEnd, mapEnd, concrete, hsame]
  | error e m' =>
    rw [final_of_error hend] at hsame
    rw [mapEnd, mapEnd, concrete, hsame]

/-! ## Primitive values -/

theorem scalarAt_concrete (a : Allocation) (offset : Nat) (size : Int) (kind : Kind) :
    scalarAt (a.map (Cell.ground v) (Pointer.concrete v)) offset size kind
      = (scalarAt a offset size kind).map (Scalar.concrete v kind) := by
  unfold scalarAt
  rw [Allocation.relocationsIn_map, Allocation.definedIn_map, Allocation.lookup_map]
  split
  · split
    · rfl
    · rw [Allocation.cells_map, Section.map_slice, ← Scalar.concrete_ofCells]
      rfl
  · cases a.relocations.lookup offset with
    | none => rfl
    | some target =>
      simp only [Option.map_some]
      split
      · rfl
      · rfl

theorem readScalar_concrete (p : Pointer) (size : Int) (kind : Kind) (align : Int) :
    (m.concrete v).readScalar p size kind align
      = (m.readScalar p size kind align).map (Scalar.concrete v kind) := by
  have hchecked := checked_map (f := Cell.ground v) (g := Pointer.concrete v) (s := m.store) (m := m)
    p size align
  cases h : m.checked p size align with
  | error e =>
    rw [h] at hchecked
    unfold readScalar
    rw [h, concrete, hchecked]
    rfl
  | ok x =>
    obtain ⟨id, offset, a⟩ := x
    rw [h] at hchecked
    rw [readScalar_eq kind h, ← scalarAt_concrete]
    exact readScalar_eq kind hchecked

/-- A value as wide as its slot is written as its concrete form. -/
theorem commutes_writeScalar (p : Pointer) {a : Scalar} {kind : Kind} {size : Int} (align : Int)
    (hwidth : ∀ list, a = .cells list → list.length = kind.numBytes ∧ size = kind.numBytes) :
    Commutes id (map (Cell.ground v) (Pointer.concrete v) m.store) (writeScalar p a size align)
      (writeScalar p (a.concrete v kind) size align) m := by
  cases a with
  | ptr target => exact commutes_writePointer p target size align rfl
  | undef => exact commutes_checked fun _ _ _ _ => commutes_markDefinedness p size false
  | bits q =>
    refine commutes_checked fun _ _ _ _ => ?_
    by_cases hneg : size < 0
    · simp only [hneg, if_true]
      rfl
    · simp only [hneg, if_false]
      have hwrite := commutes_writeBytes (f := Cell.ground v) (g := Pointer.concrete v)
        (s := m.store) (m := m) p (Cell.ofNat q.toNat size.toNat) 1
      rwa [ground_ofNat] at hwrite
  | cells list =>
    obtain ⟨hlength, rfl⟩ := hwidth list rfl
    obtain ⟨q, hq, hcells⟩ := Scalar.concrete_cells (v := v) hlength
    rw [hq]
    refine commutes_checked fun _ _ _ _ => ?_
    -- the pattern has the replaced cells as its bytes, so both sides write the same
    rw [← hlength]
    have hpos : ¬ (list.length : Int) < 0 := by omega
    simp only [ne_eq, not_true_eq_false, if_false, hpos, Int.toNat_natCast, hcells]
    exact commutes_writeBytes p list 1

/-! ## All operations -/

/-- Every operation on memory commutes with concretisation, errors included. A symbolic value is
written to a slot of its width. -/
theorem concrete_commutes (v : Valuation) (m : Memory) (id1 offset1 id2 offset2 : Nat) :
    let p : Pointer := .known id1 offset1
    let q : Pointer := .known id2 offset2
    (∀ region, Commutes id (concrete v) (deallocate p region) (deallocate p region) m) ∧
    (∀ size, Commutes id (concrete v) (markPacked p size) (markPacked p size) m) ∧
    (∀ cells align, Commutes id (concrete v) (writeBytes p cells align)
      (writeBytes p (cells.map (Cell.ground v)) align) m) ∧
    (∀ cell count align, Commutes id (concrete v) (writeRepeat p cell count align)
      (writeRepeat p (cell.ground v) count align) m) ∧
    (∀ size defined, Commutes id (concrete v) (markDefinedness p size defined)
      (markDefinedness p size defined) m) ∧
    (∀ size align, Commutes id (concrete v) (copyBytes p q size align) (copyBytes p q size align) m) ∧
    (∀ (a : Scalar) (kind : Kind) (size align : Int),
      (∀ list, a = .cells list → list.length = kind.numBytes ∧ size = kind.numBytes) →
      Commutes id (concrete v) (writeScalar p a size align)
        (writeScalar p (a.concrete v kind) size align) m) ∧
    (∀ size align, (m.concrete v).readBytes p size align
      = (m.readBytes p size align).map (List.map (Cell.ground v))) ∧
    ∀ size kind align, (m.concrete v).readScalar p size kind align
      = (m.readScalar p size kind align).map (Scalar.concrete v kind) := by
  intro p q
  have hedit {act : Run Memory Unit} (h : Edit False act) : Keeps SameStore act :=
    sameStore_respected.edit h
  refine ⟨fun region => commutes_concrete (keeps_deallocate p region) (commutes_deallocate p region),
    fun size => commutes_concrete (hedit (.markPacked p False.elim)) (commutes_markPacked p size),
    fun cells align => commutes_concrete (sameStore_respected.writeBytes p cells align)
      (commutes_writeBytes p cells align),
    fun cell count align => commutes_concrete (hedit (.writeRepeat p cell count align))
      (commutes_writeRepeat p cell count align),
    fun size defined => commutes_concrete (hedit (.markDefinedness p defined False.elim))
      (commutes_markDefinedness p size defined),
    fun size align => commutes_concrete (hedit (.copyBytes p q align False.elim))
      (commutes_copyBytes p q size align),
    fun a kind size align hwidth => commutes_concrete (hedit (.writeScalar p a align False.elim))
      (commutes_writeScalar p align hwidth),
    fun size align => readBytes_map p size align,
    fun size kind align => readScalar_concrete p size kind align⟩

/-- An allocation of a known byte, a symbolic one and two undefined ones. -/
def mixed : Memory where
  limit := 64
  usage := 4
  allocs := [(1, ⟨[.known 7, .symbol 0, .known 0, .known 0], [true, true, false, false], 2, .heap, [], []⟩)]
  next := 2

/-- Two bytes, the upper one symbolic, go over undefined ones: the concrete memory takes their number.
A value at an odd offset is refused on both sides. -/
theorem concrete_commutes_mixed :
    (∃ m', writeScalar (.known 1 2) (.cells [.known 255, .symbol 0]) 2 2 mixed = .ok () m' ∧
      writeScalar (.known 1 2) (.ofInt (-32513)) 2 2 (mixed.concrete fun _ => 128)
        = .ok () (m'.concrete fun _ => 128)) ∧
    (mixed.concrete fun _ => 128).readScalar (.known 1 1) 2 (.int .w16 true) 2
      = .error (.misaligned 1 1 2) := by
  have h := concrete_commutes (fun _ => 128) mixed 1 2 1 2
  have hodd := concrete_commutes (fun _ => 128) mixed 1 1 1 1
  have hvalue : Scalar.concrete (fun _ => 128) (.int .w16 true) (.cells [.known 255, .symbol 0])
      = .ofInt (-32513) := by decide +kernel
  have hwidth : ∀ list, Scalar.cells [.known 255, .symbol 0] = .cells list →
      list.length = Kind.numBytes (.int .w16 true) ∧ (2 : Int) = Kind.numBytes (.int .w16 true) := by
    rintro list ⟨⟩
    exact ⟨rfl, rfl⟩
  have hwrite := h.2.2.2.2.2.2.1 (.cells [.known 255, .symbol 0]) (.int .w16 true) 2 2 hwidth
  rw [hvalue] at hwrite
  exact ⟨⟨_, rfl, hwrite⟩, hodd.2.2.2.2.2.2.2.2 2 (.int .w16 true) 2⟩

end Memory
end SymExec

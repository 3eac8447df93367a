import SymExec.Proofs.Excerpt

/-!
# What a write leaves as it was

An operation that writes to a range changes nothing else: a read in another allocation, or of a range
apart from the one that was written, has the result that it had before, be it a value or an error. The
exception are reads that touch a stored pointer which has bytes in the written range too, as it may
be gone then (`Memory.Op.reads_unchanged`).
-/
namespace SymExec

open Run Section

/-- The allocation `b` with the bytes and pointers of a range of `a` copied to it. -/
def Allocation.copyFrom (b a : Allocation) (start offset : Nat) (size : Int) : Allocation :=
  Memory.received (slice a.cells start (start + size))
    (slice a.defined start (start + size)) (a.within start size) start offset size b

namespace Memory

open Allocation

/-! ## Writes to a range -/

/-- The allocations of `m'` are those of `m`, with other bytes in a range of one. -/
def Alters (id offset : Nat) (size : Int) (m m' : Memory) : Prop :=
  ∃ f, m'.allocs = (m.update id f).allocs ∧ ∀ a, m.find? id = some a → Changes offset size a (f a)

variable {m m' : Memory} {id offset : Nat} {size align : Int}

theorem excerpt_congr (h : m'.allocs = m.allocs) (q : Pointer) (n k : Int) :
    m'.excerpt q n k = m.excerpt q n k := by
  have hget (id : Nat) : m'.get id = m.get id := by rw [get, get, find?, find?, h]
  cases q with
  | symbolic id' o => rfl
  | known id' o => simp only [excerpt, checked, hget]

theorem alters_of_allocs (id offset : Nat) (size : Int) (h : m'.allocs = m.allocs) :
    Alters id offset size m m' := by
  refine ⟨fun a => a, ?_, fun a _ => .refl offset size a⟩
  rw [h, update]
  simp

/-- A copy reads its source before it changes the destination. -/
theorem copyBytes_eq_ok {source dest : Pointer} (hsize : size ≠ 0)
    (h : copyBytes source dest size align m = .ok () m') :
    ∃ id1 start a id2 offset b, m.checked source size align = .ok (id1, start, a) ∧
      m.checked dest size align = .ok (id2, offset, b) ∧
      m' = m.update id2 fun b => b.copyFrom a start offset size := by
  unfold copyBytes at h
  rw [if_neg hsize, bind_of_ok (getThe_apply m)] at h
  obtain ⟨⟨id1, start, a⟩, hsource, h⟩ := liftBind_eq_ok.1 h
  obtain ⟨⟨id2, offset, b⟩, hdest, ⟨⟩⟩ := liftBind_eq_ok.1 h
  exact ⟨id1, start, a, id2, offset, b, hsource, hdest, rfl⟩

section Regular

variable (hm : m.Regular)
include hm

/-- A change of a place that an access was checked for. -/
theorem alters_update {g : Nat → Allocation → Allocation} {n : Int}
    (hg : ∀ a : Allocation, a.defined.length = a.cells.length → (offset : Int) + n ≤ a.size →
      Changes offset size a (g offset a))
    (h : ∃ id' offset' a, m.checked (.known id offset) n align = .ok (id', offset', a) ∧
      m' = m.update id' (g offset')) : Alters id offset size m m' := by
  obtain ⟨id', offset', a, hchecked, rfl⟩ := h
  obtain ⟨⟨⟩, hfind, hle⟩ := checked_eq_ok hchecked
  refine ⟨g offset, rfl, fun b hb => ?_⟩
  cases hfind.symm.trans hb
  exact hg a (hm.allocs _ (mem_of_lookup hfind)).marked hle

theorem alters_writeBytes {cells : List Cell}
    (h : writeBytes (.known id offset) cells align m = .ok () m') :
    Alters id offset cells.length m m' := by
  by_cases hcells : cells = []
  · subst hcells
    cases h
    exact alters_of_allocs _ _ _ rfl
  · exact alters_update hm (fun a _ hle => changes_write (by omega))
      (writeBytes_eq_ok hcells h)

theorem alters_writeRepeat {cell : Cell} {count : Int}
    (h : writeRepeat (.known id offset) cell count align m = .ok () m') :
    Alters id offset count.toNat m m' := by
  unfold writeRepeat at h
  split at h
  · cases h
  · split at h
    · cases h
      exact alters_of_allocs _ _ _ rfl
    · -- the same as writing the bytes one by one
      have hlength : (List.replicate count.toNat cell).length = count.toNat := List.length_replicate
      have hcount : count = (List.replicate count.toNat cell).length := by omega
      have hwrite : writeBytes (.known id offset) (List.replicate count.toNat cell) align m
          = .ok () m' := by
        rw [writeBytes, if_neg (by simp; omega), ← hcount]
        exact h
      have halters := alters_writeBytes hm hwrite
      rwa [hlength] at halters

theorem alters_markDefinedness {defined : Bool} (hsize : 0 ≤ size)
    (h : markDefinedness (.known id offset) size defined m = .ok () m') :
    Alters id offset size m m' := by
  by_cases hzero : size = 0
  · subst hzero
    cases h
    exact alters_of_allocs _ _ _ rfl
  · exact alters_update hm (fun a hmarked hle => changes_mark hmarked hsize hle defined)
      (markDefinedness_eq_ok hzero h)

theorem alters_makeSymbolic (h : makeSymbolic (.known id offset) size m = .ok () m') :
    Alters id offset size.toNat m m' := by
  obtain ⟨cells, m1, hfresh, hwrite⟩ := bind_eq_ok.1 h
  cases hfresh
  have hregular : ({ m with store := (m.store.addInput size.toNat).2 } : Memory).Regular :=
    ⟨⟨hm.ordered.increasing, hm.ordered.below⟩, hm.allocs⟩
  have halters := alters_writeBytes hregular hwrite
  have hlength : (Store.cellsFrom m.store.size size.toNat).length = size.toNat := by
    simp [Store.cellsFrom]
  rwa [hlength] at halters

theorem alters_copyBytes {source : Pointer} (hsize : 0 ≤ size)
    (h : copyBytes source (.known id offset) size align m = .ok () m') :
    Alters id offset size m m' := by
  by_cases hzero : size = 0
  · subst hzero
    cases h
    exact alters_of_allocs _ _ _ rfl
  · obtain ⟨id1, start, a, id', offset', b, hsource, hdest, rfl⟩ := copyBytes_eq_ok hzero h
    obtain ⟨-, hfrom, hstart⟩ := checked_eq_ok hsource
    obtain ⟨⟨⟩, hto, hoffset⟩ := checked_eq_ok hdest
    have hmarked := (hm.allocs _ (mem_of_lookup hfrom)).marked
    refine ⟨_, rfl, fun b' hb' => ?_⟩
    cases hto.symm.trans hb'
    rw [copyFrom, received_eq hsize hstart]
    have hcells : (slice a.cells start (start + size)).length = size.toNat :=
      length_slice _ hsize hstart
    have hbits : (slice a.defined start (start + size)).length = size.toNat :=
      length_slice _ hsize (by rw [hmarked]; exact hstart)
    have hbytes := changes_of_marked (hm.allocs _ (mem_of_lookup hto)).marked (hbits.trans hcells.symm)
      (show offset + (slice a.cells start (start + size)).length ≤ b.size by omega)
    rw [hcells, Int.toNat_of_nonneg hsize] at hbytes
    refine hbytes.foldl_relocate (fun o => offset + (o - start)) fun r hr => ?_
    obtain ⟨-, hlow, hhigh⟩ := mem_within.1 hr
    omega

theorem alters_writeScalar {v : Scalar} (hsize : 0 ≤ size)
    (h : writeScalar (.known id offset) v size align m = .ok () m') :
    Alters id offset size m m' := by
  obtain ⟨id', offset', a, hchecked, hfits, rfl⟩ := writeScalar_eq_ok hsize h
  split
  · exact alters_of_allocs _ _ _ rfl
  · exact alters_update hm (g := fun offset a => a.put offset size v)
      (fun a hmarked hle => changes_put hmarked hsize hle hfits) ⟨id', offset', a, hchecked, rfl⟩

end Regular

/-- The range that an operation writes to, if it only changes contents. -/
def Op.range? : Op → Option (Pointer × Int)
  | writeBytes p cells _ => some (p, cells.length)
  | writeRepeat p _ count _ => some (p, count.toNat)
  | markDefinedness p size _ => some (p, size)
  | makeSymbolic p size => some (p, size.toNat)
  | copyBytes _ dest size _ => some (dest, size)
  | writeScalar p _ size _ => some (p, size)
  | _ => none

theorem Op.alters (hm : m.Regular) {op : Op} (hrange : op.range? = some (.known id offset, size))
    (hsize : 0 ≤ size) {r : Option Nat} (h : op.run m = .ok r m') : Alters id offset size m m' := by
  have hact {act : Run Memory Unit} {r' : Option Nat}
      (h : (do act; return r' : Run Memory (Option Nat)) m = .ok r m') : act m = .ok () m' := by
    obtain ⟨⟨⟩, m1, hrun, ⟨⟩⟩ := bind_eq_ok.1 h
    exact hrun
  cases op with
  | writeBytes p cells align =>
    cases hrange
    exact alters_writeBytes hm (hact h)
  | writeRepeat p cell count align =>
    cases hrange
    exact alters_writeRepeat hm (hact h)
  | markDefinedness p size defined =>
    cases hrange
    exact alters_markDefinedness hm hsize (hact h)
  | makeSymbolic p size =>
    cases hrange
    exact alters_makeSymbolic hm (hact h)
  | copyBytes source dest size align =>
    cases hrange
    exact alters_copyBytes hm hsize (hact h)
  | writeScalar p v size align =>
    cases hrange
    exact alters_writeScalar hm hsize (hact h)
  | _ => cases hrange

/-! ## Reads elsewhere -/

/-- The range of an access is in another allocation, or has no byte in common with the range of
`size` bytes at `offset` and touches none of the stored pointers that have bytes there. -/
def Separate (m : Memory) (id offset : Nat) (size : Int) (q : Pointer) (n : Int) : Prop :=
  ∀ start, q = .known id start →
    (size = 0 ∨ (start : Int) + n ≤ offset ∨ (offset : Int) + size ≤ start) ∧
    ∀ a, m.find? id = some a → ∀ r ∈ a.relocations,
      overlaps offset (offset + size) r.1 = true → overlaps start (start + n) r.1 = false

theorem Alters.excerpt_eq (h : Alters id offset size m m') {q : Pointer} {n : Int}
    (hn : 0 ≤ n) (hseparate : m.Separate id offset size q n) (k : Int) :
    m'.excerpt q n k = m.excerpt q n k := by
  obtain ⟨f, hallocs, hf⟩ := h
  rw [excerpt_congr hallocs, excerpt, excerpt, checked_update hf]
  cases hchecked : m.checked q n k with
  | error e => rfl
  | ok x =>
    obtain ⟨id', start, a⟩ := x
    obtain ⟨rfl, hfind, hle⟩ := checked_eq_ok hchecked
    by_cases hid : id' = id
    · subst hid
      obtain ⟨hapart, hclear⟩ := hseparate start rfl
      simp only [Except.map, if_true]
      rw [(hf a hfind).excerpt_eq hn hle hapart (hclear a hfind)]
    · simp only [Except.map, if_neg hid]

/-- A read of a range that is separate from the one that was written gives the same value or the same
error as before. -/
theorem Op.reads_unchanged (hm : m.Regular) {op : Op} {r : Option Nat}
    (hrange : op.range? = some (.known id offset, size)) (hsize : 0 ≤ size)
    (h : op.run m = .ok r m') {q : Pointer} {n : Int} (hn : 0 ≤ n)
    (hseparate : m.Separate id offset size q n) (align : Int) :
    m'.readBytes q n align = m.readBytes q n align ∧
    ∀ kind, m'.readScalar q n kind align = m.readScalar q n kind align :=
  reads_eq_of_excerpt ((alters hm hrange hsize h).excerpt_eq hn hseparate align)

/-- A number over the end of the first pointer: the other pointer is read as before. -/
theorem Op.reads_unchanged_sample :
    let m := (after 64 sample).1
    let op : Op := .writeScalar (.known 1 4) (.ofNat 7) 8 1
    m.Regular ∧ op.range? = some (.known 1 4, 8) ∧ m.Separate 1 4 8 (.known 1 16) 8 ∧
    ∃ m', op.run m = .ok none m' ∧
      m'.readScalar (.known 1 16) 8 .ptr 8 = m.readScalar (.known 1 16) 8 .ptr 8 := by
  have hseparate : (after 64 sample).1.Separate 1 4 8 (.known 1 16) 8 := by
    rintro start ⟨⟩
    refine ⟨by decide, fun a hfind r hr => ?_⟩
    have hmem : r.1 ∈ [0, 16] := stored_sample hfind ▸ List.mem_map_of_mem hr
    revert hmem
    generalize r.1 = x
    revert x
    decide
  obtain ⟨m', hrun⟩ : ∃ m', Op.run (.writeScalar (.known 1 4) (.ofNat 7) 8 1) (after 64 sample).1
      = .ok none m' := exists_of_run' (by decide +kernel)
  refine ⟨regular_sample, rfl, hseparate, m', hrun, ?_⟩
  exact (reads_unchanged regular_sample rfl (by decide) hrun (by decide) hseparate 8).2 .ptr

end Memory
end SymExec

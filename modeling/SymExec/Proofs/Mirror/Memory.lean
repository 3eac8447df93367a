import SymExec.Proofs.Mirror

/-!
# Memory of known and of symbolic bytes

Accesses look at bounds, alignment, definedness and stored pointers, never at the bytes, so they do
the same to a memory with known bytes in the place of symbolic ones.
-/
namespace SymExec.Memory

open Run Section List Cell

variable {id offset : Nat} {align size : Int} {kind : Kind} {p : Pointer} {a : Allocation}
  {α α' : Type} {b : Scalar} {q r : BitVec 128} {R : α → α' → Prop}

/-- Memories seen under values of the symbolic bytes. -/
def view (v : Valuation) (s0 : Store) : View Memory := ⟨v, Memory.store, Memory.ground v s0⟩

variable {v : Valuation} {s0 : Store} {E : EvalError → Prop} {D : Prop} {m : Memory}

/-- What leaves the store alone and does the same to the memory with known bytes. -/
theorem mirrors_of_keeps {act : Run Memory α} {act' : Run Memory α'} (hstore : Keeps SameStore act)
    (h : ∀ a m', act m = .ok a m' → ∃ a', R a a' ∧ act' (m.ground v s0) = .ok a' (m'.ground v s0)) :
    Mirrors (view v s0) E D R act act' m := by
  intro a m' hok
  have hsame : m'.store = m.store := by
    rw [← final_of_ok hok]
    exact hstore m
  obtain ⟨a', ha, hok'⟩ := h a m' hok
  refine ⟨?_, ⟨a', ha⟩, fun _ => .inl ⟨a', ha, hok'⟩⟩
  change m.store.Develops m'.store
  rw [hsame]
  exact Store.develops_composes.refl _

/-! ## Allocation -/

def SameStart (p p' : Pointer) : Prop := ∃ id, p = .known id 0 ∧ p' = .known id 0

theorem mirrors_allocate (size align : Int) (region : Region) :
    Mirrors (view v s0) E D SameStart (allocate size align region) (allocate size align region) m := by
  refine mirrors_of_keeps (keeps_allocate size align region) fun p m' hok => ?_
  rw [allocate_eq] at hok ⊢
  split at hok
  · cases hok
  · rename_i halign
    rw [if_neg halign]
    split at hok
    · rw [failReporting_apply] at hok
      cases hok
    · rename_i hfree
      have hfree' : ¬ (m.ground v s0).limit - (m.ground v s0).usage < size := hfree
      rw [if_neg hfree']
      split at hok
      · cases hok
      · rename_i hcells
        cases hok
        rw [if_neg hcells]
        refine ⟨_, ⟨_, rfl, rfl⟩, ?_⟩
        simp [ground, Allocation.ground, Cell.ground]

theorem mirrors_allocateStatic (data : List (BitVec 8)) :
    Mirrors (view v s0) E D SameStart (allocateStatic data) (allocateStatic data) m := by
  refine .bind (mirrors_allocate _ _ _) fun p p' m1 _ hp => ?_
  obtain ⟨id, rfl, rfl⟩ := hp
  refine .bind (R := fun _ _ => True) ?_ fun _ _ m2 _ _ => .pure ⟨id, rfl, rfl⟩
  refine .modify rfl (update_ground id fun a => ?_)
  simp [Allocation.ground, Cell.ground, Function.comp_def]

theorem mirrors_deallocate (p : Pointer) (region : Option Region) :
    Shadows (view v s0) E D (deallocate p region) (deallocate (p.ground v) region)
      m := by
  refine mirrors_of_keeps (keeps_deallocate p region) fun u m' hok => ⟨(), trivial, ?_⟩
  cases p with
  | symbolic _ _ => cases hok
  | known id offset =>
    refine (commutes_deallocate (.known id offset) region).trans ?_
    rw [hok]
    rfl

/-! ## Bytes -/

/-- An access is checked in the same way, so what follows it may take the check for granted. -/
theorem mirrors_checked {f : Nat × Nat × Allocation → Run Memory α}
    {f' : Nat × Nat × Allocation → Run Memory α'}
    (hf : ∀ id offset a, m.checked p size align = .ok (id, offset, a) →
      Mirrors (view v s0) E D R (f (id, offset, a)) (f' (id, offset, a.ground v)) m) :
    Mirrors (view v s0) E D R
      (do
        let m ← getThe Memory
        let x ← m.checked p size align
        f x)
      (do
        let m ← getThe Memory
        let x ← m.checked (p.ground v) size align
        f' x) m := by
  refine .bind .get fun m1 m1' m2 hm2 hm => ?_
  cases hm2
  obtain ⟨-, rfl⟩ := hm
  have hcheck : Mirrors (view v s0) E D (fun x x' => x' = (x.1, x.2.1, x.2.2.ground v))
      (liftM (m.checked p size align) : Run Memory _)
      (liftM ((m.ground v s0).checked (p.ground v) size align)) m :=
    .lift_of_ok fun x hx => ⟨_, rfl, checked_ground hx⟩
  refine .bind hcheck fun x x' m3 hx hx' => ?_
  obtain ⟨hchecked, rfl⟩ := of_eq_ok.1 hx
  obtain rfl := hx'
  exact hf x.1 x.2.1 x.2.2 (lift_eq_ok.1 hchecked)

theorem mirrors_update (id : Nat) {f f' : Allocation → Allocation}
    (h : ∀ a, f' (a.ground v) = (f a).ground v) :
    Shadows (view v s0) E D (modify (update id f) : Run Memory Unit)
      (modify (update id f')) m :=
  .modify rfl (update_ground id h)

theorem mirrors_markPacked (p : Pointer) (size : Int) :
    Shadows (view v s0) E D (markPacked p size) (markPacked (p.ground v) size) m :=
  mirrors_checked fun id _ _ _ => mirrors_update id fun _ => rfl

theorem mirrors_writeBytes (p : Pointer) (cells : List Cell) (align : Int) :
    Shadows (view v s0) E D (writeBytes p cells align)
      (writeBytes (p.ground v) (cells.map (Cell.ground v)) align) m := by
  unfold writeBytes
  rw [isEmpty_map, length_map]
  split
  · exact .pure trivial
  · exact mirrors_checked fun id offset _ _ => mirrors_update id fun a => a.write_ground v offset cells

theorem mirrors_writeRepeat (p : Pointer) (cell : Cell) (count align : Int) :
    Shadows (view v s0) E D (writeRepeat p cell count align)
      (writeRepeat (p.ground v) (cell.ground v) count align) m := by
  unfold writeRepeat
  by_cases hmax : maxCells ≤ count
  · rw [if_pos hmax]
    exact .of_error rfl
  · rw [if_neg hmax, if_neg hmax]
    by_cases hnone : count ≤ 0
    · rw [if_pos hnone, if_pos hnone]
      exact .pure trivial
    · rw [if_neg hnone, if_neg hnone]
      refine mirrors_checked fun id offset _ _ => mirrors_update id fun a => ?_
      rw [← map_replicate, a.write_ground]

theorem mirrors_markDefinedness (p : Pointer) (size : Int) (defined : Bool) :
    Shadows (view v s0) E D (markDefinedness p size defined)
      (markDefinedness (p.ground v) size defined) m := by
  unfold markDefinedness
  split
  · exact .pure trivial
  · exact mirrors_checked fun id offset _ _ => mirrors_update id fun a =>
      a.mark_ground v offset size defined

theorem received_ground (cells : List Cell) (defined : List Bool) (moved : List (Nat × Pointer))
    (start offset : Nat) (size : Int) (b : Allocation) :
    received (cells.map (Cell.ground v)) defined (moved.map fun (o, p) => (o, p.ground v)) start offset
        size (b.ground v)
      = (received cells defined moved start offset size b).ground v :=
  received_map cells defined moved start offset size b

theorem mirrors_copyBytes (source dest : Pointer) (size align : Int) :
    Shadows (view v s0) E D (copyBytes source dest size align)
      (copyBytes (source.ground v) (dest.ground v) size align) m := by
  unfold copyBytes
  split
  · exact .pure trivial
  · refine mirrors_checked fun _ start a _ => ?_
    refine .bind (R := fun x x' => x' = (x.1, x.2.1, x.2.2.ground v))
      (.lift_of_ok fun x hx => ⟨_, rfl, checked_ground hx⟩) fun x x' _ _ hx => ?_
    obtain ⟨id, offset, b⟩ := x
    obtain rfl := hx
    refine mirrors_update id fun b => ?_
    have hcells : slice (a.ground v).cells start (start + size)
        = (slice a.cells start (start + size)).map (Cell.ground v) :=
      map_slice _ _ _ _
    have hmoved : (a.ground v).relocations.filter
          (fun (o, _) => start ≤ o && (o : Int) + pointerSize ≤ start + size)
        = (a.relocations.filter
            (fun (o, _) => start ≤ o && (o : Int) + pointerSize ≤ start + size)).map
          fun (o, p) => (o, p.ground v) := by
      simp [Allocation.ground, filter_map, Function.comp_def]
    change received (slice (a.ground v).cells start (start + size)) _
      ((a.ground v).relocations.filter _) start offset size (b.ground v) = _
    rw [hcells, hmoved, received_ground]
    rfl

/-! ## Primitive values -/

theorem ground_ofNat (value n : Nat) :
    (Cell.ofNat value n).map (Cell.ground v) = Cell.ofNat value n := by
  induction n generalizing value with
  | zero => rfl
  | succ n ih => rw [Cell.ofNat, map_cons, ih, Cell.ground, Cell.eval_known]

theorem mirrors_writeScalar (p : Pointer) {a a' : Scalar} (ha : a.Agrees v a') (size align : Int) :
    Shadows (view v s0) E D (writeScalar p a size align)
      (writeScalar (p.ground v) a' size align) m := by
  refine mirrors_checked fun id offset b hchecked => ?_
  cases ha with
  | undef => exact mirrors_markDefinedness p size false
  | ptr target =>
    by_cases hsize : size ≠ pointerSize
    · simp only [hsize, if_true, not_false_eq_true, ne_eq]
      exact .of_error rfl
    · simp only [hsize, if_false]
      have hwrite : Shadows (view v s0) E D
          (writeBytes p (replicate pointerSize (.known 0)) 1)
          (writeBytes (p.ground v) (replicate pointerSize (.known 0)) 1) m := by
        have hmap : (replicate pointerSize (Cell.known 0)).map (Cell.ground v)
            = replicate pointerSize (.known 0) := map_replicate
        rw [← hmap]
        exact hmap ▸ mirrors_writeBytes p _ 1
      refine .bind hwrite fun _ _ m1 _ _ => mirrors_update id fun c => ?_
      rw [c.relocate_ground]
  | bits q =>
    by_cases hsize : size < 0
    · simp only [hsize, if_true]
      exact .of_error rfl
    · simp only [hsize, if_false]
      have hwrite : Shadows (view v s0) E D
          (writeBytes p (Cell.ofNat q.toNat size.toNat) 1) _ m := mirrors_writeBytes p _ 1
      rwa [ground_ofNat] at hwrite
  | @cells list q hsymbols hlow =>
    by_cases hsize : (list.length : Int) ≠ size
    · simp only [hsize, if_true, not_false_eq_true, ne_eq]
      exact .of_error rfl
    · obtain rfl : (list.length : Int) = size := by simpa using hsize
      simp only [ne_eq, not_true_eq_false, if_false]
      have hpos : ¬ (list.length : Int) < 0 := by omega
      rw [if_neg hpos, Int.toNat_natCast, Cell.ofNat_eq_ground hlow]
      exact mirrors_writeBytes p list 1

theorem scalarAt_agrees (hsize : size = kind.numBytes) (hbounds : (offset : Int) + size ≤ a.size)
    (h : scalarAt a offset size kind = .ok b) :
    (∀ list, b = .cells list → list.length = kind.numBytes) ∧
      ∃ b', b.Agrees v b' ∧ scalarAt (a.ground v) offset size kind = .ok b' := by
  have hlength : (slice a.cells offset (offset + size)).length = kind.numBytes := by
    rw [length_slice _ (by omega) hbounds, hsize, Int.toNat_natCast]
  unfold scalarAt at h ⊢
  rw [Allocation.relocationsIn_ground, Allocation.definedIn_ground, Allocation.lookup_ground]
  split at h
  · split at h
    · rename_i hundefined
      cases h
      exact ⟨by simp, .undef, .undef, if_pos hundefined⟩
    · rename_i hdefined
      cases h
      refine ⟨fun list hlist => (Scalar.length_of_ofCells hlist).trans hlength, _, .ofCells hlength, ?_⟩
      rw [if_neg hdefined, Allocation.ground, map_slice, Scalar.ofCells_ground]
  · split at h
    · split at h
      · rename_i target hlookup hwhole
        cases h
        refine ⟨by simp, _, .ptr target, ?_⟩
        rw [hlookup]
        exact if_pos hwhole
      · cases h
    · cases h

/-- A value that is read is what it is under `v`, and made of as many cells as its kind has. -/
theorem readScalar_agrees (hsize : size = kind.numBytes)
    (h : m.readScalar p size kind align = .ok b) :
    (∀ list, b = .cells list → list.length = kind.numBytes) ∧
      ∃ b', b.Agrees v b' ∧ (m.ground v s0).readScalar (p.ground v) size kind align = .ok b' := by
  obtain ⟨⟨id, offset, a⟩, hchecked, -⟩ := bind_iff.1 h
  rw [readScalar_eq kind hchecked] at h
  rw [readScalar_eq kind (checked_ground hchecked)]
  exact scalarAt_agrees hsize (checked_eq_ok hchecked).2.2 h

/-! ## Bytes that are written back -/

theorem eq_of_lookup {allocs : List (Nat × Allocation)} (hincreasing : allocs.Pairwise (·.1 < ·.1))
    (h : allocs.lookup id = some a) : ∀ x ∈ allocs, x.1 = id → x.2 = a := by
  induction allocs with
  | nil => cases h
  | cons y allocs ih =>
    rw [pairwise_cons] at hincreasing
    intro x hx hid
    rw [lookup_cons] at h
    rcases mem_cons.1 hx with rfl | hx
    · rw [show (id == x.1) = true by simp [hid]] at h
      exact Option.some.inj h
    · have hlt := hincreasing.1 x hx
      rw [show (id == y.1) = false by simp; omega] at h
      exact ih hincreasing.2 h x hx hid

/-- A change that leaves the one allocation of a number as it is changes nothing. -/
theorem update_eq_self (hordered : m.Ordered) {f : Allocation → Allocation}
    (hfind : m.find? id = some a) (hf : f a = a) : m.update id f = m := by
  have hsame : ∀ x ∈ m.allocs, (if x.1 = id then (x.1, f x.2) else (x.1, x.2)) = x := by
    intro x hx
    split
    · rename_i hid
      rw [eq_of_lookup hordered.increasing hfind x hx hid, hf,
        ← eq_of_lookup hordered.increasing hfind x hx hid]
    · rfl
  exact congrArg (fun allocs => { m with allocs := allocs })
    ((map_congr_left hsame).trans (map_id' _))

theorem ordered_ground (h : m.Ordered) : (m.ground v s0).Ordered := by
  constructor
  · exact pairwise_map.2 h.increasing
  · intro y hy
    obtain ⟨x, hx, rfl⟩ := mem_map.1 hy
    exact h.below x hx

theorem marked_ground (h : m.Marked) : (m.ground v s0).Marked := by
  intro y hy
  obtain ⟨x, hx, rfl⟩ := mem_map.1 hy
  simpa [Allocation.ground] using h x hx

/-- What is within bounds is accessible without alignment. -/
theorem checked_one (h : m.checked p size align = .ok (id, offset, a)) :
    m.checked p size 1 = .ok (id, offset, a) := by
  obtain ⟨rfl, hfound, hbounds⟩ := checked_eq_ok h
  simp only [checked, get_eq_ok.2 hfound]
  refine (if_neg (by omega)).trans (if_neg ?_)
  simp

/-- A known value is read from bytes that are all known. -/
theorem scalarAt_eq_bits (hsize : size = kind.numBytes) (hbounds : (offset : Int) + size ≤ a.size)
    (h : scalarAt a offset size kind = .ok (.bits q)) :
    a.relocationsIn offset (offset + size) = [] ∧ a.definedIn offset (offset + size) = true ∧
      ofNat q.toNat kind.numBytes = slice a.cells offset (offset + size) := by
  have hlength : (slice a.cells offset (offset + size)).length = kind.numBytes := by
    rw [length_slice _ (by omega) hbounds, hsize, Int.toNat_natCast]
  unfold scalarAt at h
  split at h
  · rename_i hfree
    split at h
    · cases h
    · rename_i hdefined
      refine ⟨hfree, by simpa using hdefined, ?_⟩
      generalize slice a.cells offset (offset + size) = cells at h hlength ⊢
      have hbits := Except.ok.inj h
      unfold Scalar.ofCells at hbits
      split at hbits
      · rename_i hknown
        have hlow := Scalar.toNat_ofBits hbits
        rw [← hlength, Nat.mod_eq_of_lt (valueOf_lt _ cells)] at hlow
        rw [← hlength, ofNat_eq_ground hlow]
        exact ground_of_symbols_eq_nil (by simpa using hknown)
      · cases hbits
  · split at h
    · split at h <;> cases h
    · cases h

theorem ofNat_congr {n k size : Nat} (h : n % 256 ^ size = k % 256 ^ size) :
    ofNat n size = ofNat k size := by
  have hlow : n % 256 ^ (ofNat k size).length = valueOf (fun _ => 0) (ofNat k size) := by
    rw [length_ofNat, valueOf_ofNat, h]
  have := ofNat_eq_ground hlow
  rwa [length_ofNat, ground_ofNat] at this

/-- Of a number only the low bytes are written. -/
theorem writeScalar_congr (p : Pointer) (align : Int)
    (h : q.toNat % 256 ^ size.toNat = r.toNat % 256 ^ size.toNat) :
    writeScalar p (.bits q) size align = writeScalar p (.bits r) size align := by
  simp only [writeScalar, ofNat_congr h]

/-- The same value written where it was read changes nothing. -/
theorem writeScalar_of_readScalar (hordered : m.Ordered) (hmarked : m.Marked)
    (hsize : size = kind.numBytes) (h : m.readScalar p size kind align = .ok (.bits q))
    (hlow : r.toNat % 256 ^ kind.numBytes = q.toNat % 256 ^ kind.numBytes) :
    writeScalar p (.bits r) size align m = .ok () m := by
  obtain ⟨⟨id, offset, a⟩, hchecked, -⟩ := bind_iff.1 h
  rw [readScalar_eq kind hchecked] at h
  obtain ⟨rfl, hfound, hbounds⟩ := checked_eq_ok hchecked
  obtain ⟨hfree, hdefined, hcells⟩ := scalarAt_eq_bits hsize hbounds h
  rw [← ofNat_congr hlow] at hcells
  have hsame : m.update id (fun b => b.write offset (ofNat r.toNat kind.numBytes)) = m := by
    refine update_eq_self hordered hfound ?_
    obtain ⟨before, after, hallocs, -⟩ := lookup_eq_some_iff.1 hfound
    have hmarks : a.defined.length = a.cells.length := hmarked (id, a) (by simp [hallocs])
    rw [hcells]
    exact a.write_slice (by omega) hbounds hmarks hfree hdefined
  have hbytes : writeBytes (.known id offset) (ofNat r.toNat kind.numBytes) 1 m = .ok () m := by
    have hone := checked_one hchecked
    rw [hsize, ← length_ofNat r.toNat kind.numBytes] at hone
    have hsome : (ofNat r.toNat kind.numBytes).isEmpty = false := by
      rw [isEmpty_eq_false_iff, ← length_pos_iff, length_ofNat]
      exact kind.numBytes_pos
    unfold writeBytes
    rw [hsome, if_neg (by simp), bind_of_ok (getThe_apply m), hone]
    exact congrArg (EStateM.Result.ok ()) hsame
  unfold writeScalar
  rw [bind_of_ok (getThe_apply m), hchecked]
  change ite (size < 0) _ (writeBytes (.known id offset) (ofNat r.toNat size.toNat) 1) m = _
  rw [if_neg (by omega), hsize, Int.toNat_natCast, hbytes]

end SymExec.Memory

import SymExec.Proofs.Memory

/-!
# What a range of memory shows

A read of a range looks at its cells, at whether all of them are defined, and at the pointers that
have bytes there (`Excerpt`). So ranges that show the same are read with the same result, wherever they
are. Bytes that were written show as they were given, whatever was there before. So a value that is
written is read back (`Memory.readScalar_written`).
-/
namespace SymExec

open Run Section List

variable {α : Type} {start : Nat} {v : Scalar}

namespace Section

theorem slice_congr {xs ys : List α} {start' : Nat} {size : Int} (hpos : 0 ≤ size)
    (hle : (start : Int) + size ≤ xs.length) (hle' : (start' : Int) + size ≤ ys.length)
    (h : ∀ k : Nat, (k : Int) < size → xs[start + k]? = ys[start' + k]?) :
    slice xs start (start + size) = slice ys start' (start' + size) := by
  refine ext_getElem? fun k => ?_
  by_cases hk : (k : Int) < size
  · rw [getElem?_slice hpos hle hk, getElem?_slice hpos hle' hk, h k hk]
  · have hlength := length_slice xs hpos hle
    have hlength' := length_slice ys hpos hle'
    rw [getElem?_eq_none (by omega), getElem?_eq_none (by omega)]

/-- A section ends where its list does. -/
theorem getElem?_slice_of_nonneg {α : Type} (xs : List α) (start : Nat) {size : Int} (hsize : 0 ≤ size)
    (k : Nat) : (slice xs start (start + size))[k]? =
      if (k : Int) < size then xs[start + k]? else none := by
  have hstart : resolve xs.length start = min start xs.length := by
    rw [resolve, if_neg (by omega), Int.toNat_natCast]
  have hstop : resolve xs.length (start + size) = min (start + size.toNat) xs.length := by
    rw [resolve, if_neg (by omega)]
    congr 1
    omega
  simp only [slice, hstart, hstop]
  rw [getElem?_take, getElem?_drop]
  by_cases hk : (k : Int) < size
  · rw [if_pos hk]
    by_cases hin : start + k < xs.length
    · rw [if_pos (by omega), Nat.min_eq_left (by omega)]
    · rw [if_neg (by omega), getElem?_eq_none (by omega)]
  · rw [if_neg hk, if_neg (by omega)]

/-- Marks that are set in a range leave the others as they were, also if the list ends before the
range. -/
theorem splice_true_eq_false {marks : List Bool} {start n k : Nat} :
    (splice marks start (start + n) (replicate n true))[k]? = some false ↔
      ¬ (start ≤ k ∧ k < start + n) ∧ marks[k]? = some false := by
  have hstart : resolve marks.length start = min start marks.length := by
    rw [resolve, if_neg (by omega), Int.toNat_natCast]
  have hstop : resolve marks.length (start + n) = min (start + n) marks.length := by
    rw [resolve, if_neg (by omega)]
    congr 1
  have htake : (marks.take (min start marks.length)).length = min start marks.length := by
    rw [length_take]
    omega
  simp only [splice, hstart, hstop]
  rw [Nat.max_eq_right (by omega), append_assoc]
  by_cases hbefore : k < min start marks.length
  · rw [getElem?_append_left (by omega), getElem?_take_of_lt hbefore]
    exact (and_iff_right (by omega)).symm
  · rw [getElem?_append_right (by omega), htake]
    by_cases hin : k - min start marks.length < n
    · -- a mark that was set, or one past the end
      rw [getElem?_append_left (by simpa using hin), getElem?_replicate, if_pos hin]
      have hout : ¬ (¬ (start ≤ k ∧ k < start + n) ∧ marks[k]? = some false) := by
        rintro ⟨hrange, hmark⟩
        obtain ⟨hlt, -⟩ := List.getElem?_eq_some_iff.1 hmark
        omega
      exact iff_of_false (by simp) hout
    · rw [getElem?_append_right (by simpa using hin), length_replicate, getElem?_drop]
      by_cases hlength : start + n ≤ marks.length
      · have hout : ¬ (start ≤ k ∧ k < start + n) := by omega
        have hsame : min (start + n) marks.length + (k - min start marks.length - n) = k := by omega
        rw [hsame]
        exact (and_iff_right hout).symm
      · rw [getElem?_eq_none (by omega), getElem?_eq_none (by omega)]
        simp

end Section

/-! ## Excerpts -/

/-- What a range of an allocation shows to a reader. -/
structure Excerpt where
  cells : List Cell
  defined : Bool
  /-- The pointers that have bytes in the range, by their distance from its start. -/
  pointers : List (Int × Pointer)

namespace Excerpt

/-- The bytes of a range, which have to be defined and free of pointers. -/
def bytes (e : Excerpt) : Except EvalError (List Cell) :=
  if e.pointers = [] then if e.defined then .ok e.cells else .error .undefinedRead
  else .error .pointerAsBytes

/-- The value that a range of a size holds. -/
def scalar (e : Excerpt) (size : Int) (kind : Kind) : Except EvalError Scalar :=
  match e.pointers with
  | [] => .ok (if e.defined then .ofCells e.cells kind else .undef)
  | [(distance, target)] =>
    if distance = 0 ∧ size = pointerSize then .ok (.ptr target) else .error .pointerAsBytes
  | _ => .error .pointerAsBytes

end Excerpt

/-- Why a value cannot be written to a slot of a size: pointers and cells have sizes of their own. -/
def Scalar.misfit? (size : Int) : Scalar → Option EvalError
  | ptr _ => if size = pointerSize then none else some .pointerAsBytes
  | cells list => if list.length = size then none else some (.slotWidth list.length size)
  | _ => none

namespace Allocation

variable {stop : Int} {defined : List Bool} {r : Nat × Pointer}

/-- The stored pointers that have bytes in the range. -/
def pointersIn (a : Allocation) (start stop : Int) : List (Nat × Pointer) :=
  a.relocations.filter fun r => overlaps start stop r.1

def excerpt (a : Allocation) (offset : Nat) (size : Int) : Excerpt where
  cells := slice a.cells offset (offset + size)
  defined := a.definedIn offset (offset + size)
  pointers := (a.pointersIn offset (offset + size)).map fun r => ((r.1 : Int) - offset, r.2)

variable {a b : Allocation} {offset : Nat} {size : Int}

theorem relocationsIn_eq_map (a : Allocation) (start stop : Int) :
    a.relocationsIn start stop = (a.pointersIn start stop).map Prod.fst := by
  rw [relocationsIn, pointersIn, filter_map]
  rfl

theorem mem_pointersIn {start : Int} : r ∈ a.pointersIn start stop ↔
    r ∈ a.relocations ∧ (r.1 : Int) < stop ∧ start < r.1 + pointerSize := by
  simp [pointersIn, overlaps]

theorem pointers_excerpt_eq_nil : (a.excerpt offset size).pointers = [] ↔
    a.relocationsIn offset (offset + size) = [] := by
  rw [relocationsIn_eq_map, excerpt, map_eq_nil_iff, map_eq_nil_iff]

/-- A pointer that alone has bytes in a range is the one that is found at its offset. -/
theorem lookup_of_pointersIn {start : Int} (h : a.pointersIn start stop = [r]) :
    a.relocations.lookup r.1 = some r.2 := by
  have hr : r ∈ a.pointersIn start stop := by simp [h]
  obtain ⟨hmem, hrange⟩ := mem_pointersIn.1 hr
  cases hlookup : a.relocations.lookup r.1 with
  | none =>
    have habsent := lookup_eq_none_iff.1 hlookup _ hmem
    simp at habsent
  | some target =>
    have hfound : (r.1, target) ∈ a.pointersIn start stop :=
      mem_pointersIn.2 ⟨Memory.mem_of_lookup hlookup, hrange⟩
    rw [h, mem_singleton] at hfound
    rw [← hfound]

/-- A value is read from what its range shows. -/
theorem scalarAt_eq (a : Allocation) (offset : Nat) (size : Int) (kind : Kind) :
    Memory.scalarAt a offset size kind = (a.excerpt offset size).scalar size kind := by
  unfold Memory.scalarAt
  rw [relocationsIn_eq_map]
  cases hfound : a.pointersIn offset (offset + size) with
  | nil =>
    simp only [excerpt, Excerpt.scalar, hfound, map_nil]
    cases a.definedIn offset (offset + size) <;> rfl
  | cons r rest =>
    cases rest with
    | nil =>
      simp only [excerpt, Excerpt.scalar, hfound, map_cons, map_nil, cons.injEq, and_true]
      by_cases hstart : r.1 = offset
      · rw [← hstart, lookup_of_pointersIn hfound]
        simp
      · rw [if_neg (by omega)]
        cases a.relocations.lookup offset with
        | none => rfl
        | some target => exact if_neg fun h => hstart h.1
    | cons r' rest =>
      simp only [excerpt, Excerpt.scalar, hfound, map_cons]
      cases a.relocations.lookup offset with
      | none => rfl
      | some target => exact if_neg (by simp)

/-- A range is defined unless a byte of it is marked. -/
theorem definedIn_eq_true (a : Allocation) (start : Nat) {n : Int} (hn : 0 ≤ n) :
    a.definedIn start (start + n) = true ↔
      ∀ k : Nat, start ≤ k → (k : Int) < start + n → a.defined[k]? ≠ some false := by
  rw [definedIn, all_eq_true]
  constructor
  · intro h k hlow hhigh hmark
    have hat := getElem?_slice_of_nonneg a.defined start hn (k - start)
    rw [if_pos (by omega), show start + (k - start) = k by omega, hmark] at hat
    cases h false (mem_of_getElem? hat)
  · intro h b hb
    obtain ⟨k, hk⟩ := mem_iff_getElem?.1 hb
    rw [getElem?_slice_of_nonneg _ _ hn] at hk
    split at hk
    · cases b with
      | true => rfl
      | false => exact absurd hk (h (start + k) (by omega) (by omega))
    · cases hk

/-! ## Bytes that were written -/

/-- No pointer has bytes in a range that was just overwritten. -/
theorem pointersIn_overwrite (a : Allocation) (offset : Nat) (cells : List Cell) (defined : List Bool) :
    (a.overwrite offset cells defined).pointersIn offset (offset + cells.length) = [] := by
  refine filter_eq_nil_iff.2 fun r hr => ?_
  obtain ⟨-, hclear⟩ := mem_filter.1 hr
  simpa using hclear

theorem excerpt_overwrite {cells : List Cell} (hmarked : a.defined.length = a.cells.length)
    (hdefined : defined.length = cells.length) (hle : offset + cells.length ≤ a.size) :
    (a.overwrite offset cells defined).excerpt offset cells.length = ⟨cells, defined.all id, []⟩ := by
  have hbits : offset + defined.length ≤ a.defined.length := by rwa [hdefined, hmarked]
  rw [excerpt, pointersIn_overwrite, map_nil, definedIn, Allocation.overwrite, ← hdefined,
    slice_splice hbits, hdefined, slice_splice hle]

theorem pointersIn_relocate {start : Int} (hnone : a.pointersIn start stop = [])
    (hin : overlaps start stop offset) (target : Pointer) :
    (a.relocate offset target).pointersIn start stop = [(offset, target)] := by
  have hkept : (a.relocations.filter fun r => r.1 != offset).filter
      (fun r => overlaps start stop r.1) = [] := by
    rw [filter_comm]
    exact (congrArg _ hnone).trans filter_nil
  rw [pointersIn, relocate, filter_append, hkept, nil_append]
  simp [hin]

def put (a : Allocation) (offset : Nat) (size : Int) : Scalar → Allocation
  | .undef => a.mark offset size false
  | .ptr target => (a.write offset (replicate pointerSize (.known 0))).relocate offset target
  | .cells list => a.write offset list
  | .bits pattern => a.write offset (Cell.ofNat pattern.toNat size.toNat)

/-! ## Changes of a range -/

/-- `b` is `a` with other bytes in a range. Pointers that had bytes there may be gone, and those that
are new lie inside. -/
structure Changes (offset : Nat) (size : Int) (a b : Allocation) : Prop where
  length : b.size = a.size
  align : b.align = a.align
  packed : b.packed = a.packed
  cells : ∀ k : Nat, (k : Int) < offset ∨ offset + size ≤ k → b.cells[k]? = a.cells[k]?
  marks : ∀ k : Nat, (k : Int) < offset ∨ offset + size ≤ k →
    (b.defined[k]? = some false ↔ a.defined[k]? = some false)
  pointers : ∀ seen : Nat → Bool,
    (∀ r ∈ a.relocations, overlaps offset (offset + size) r.1 = true → seen r.1 = false) →
    (∀ x : Nat, offset ≤ x → (x : Int) + pointerSize ≤ offset + size → seen x = false) →
    b.relocations.filter (fun r => seen r.1) = a.relocations.filter fun r => seen r.1

theorem Changes.refl (offset : Nat) (size : Int) (a : Allocation) : Changes offset size a a :=
  ⟨rfl, rfl, rfl, fun _ _ => rfl, fun _ _ => .rfl, fun _ _ _ => rfl⟩

theorem changes_overwrite {cells : List Cell} (hle : offset + cells.length ≤ a.size)
    (hmarks : ∀ k : Nat, (k : Int) < offset ∨ (offset : Int) + cells.length ≤ k →
      ((a.overwrite offset cells defined).defined[k]? = some false ↔ a.defined[k]? = some false)) :
    Changes offset cells.length a (a.overwrite offset cells defined) := by
  refine ⟨size_overwrite hle, rfl, rfl, fun k hk => ?_, hmarks, fun seen hcut _ => ?_⟩
  · exact (getElem?_splice rfl hle k).trans (if_neg (by omega))
  · refine (filter_filter ..).trans (filter_congr fun r hr => ?_)
    cases hseen : seen r.1 with
    | false => rfl
    | true =>
      have hclear : overlaps offset (offset + cells.length) r.1 = false := by
        by_contra hoverlaps
        rw [hcut r hr (by simpa using hoverlaps)] at hseen
        cases hseen
      simpa using hclear

theorem changes_of_marked {cells : List Cell} (hmarked : a.defined.length = a.cells.length)
    (hdefined : defined.length = cells.length) (hle : offset + cells.length ≤ a.size) :
    Changes offset cells.length a (a.overwrite offset cells defined) := by
  have hstop : (offset : Int) + cells.length = offset + defined.length := by rw [hdefined]
  have hbits : offset + defined.length ≤ a.defined.length := by rwa [hdefined, hmarked]
  refine changes_overwrite hle fun k hk => ?_
  have hsame := (getElem?_splice hstop hbits k).trans (if_neg (by omega))
  rw [Allocation.overwrite, hsame]

/-- Marks that are set leave the others as they were, also where they end too early. -/
theorem changes_write {cells : List Cell} (hle : offset + cells.length ≤ a.size) :
    Changes offset cells.length a (a.write offset cells) := by
  rw [write_eq_overwrite]
  exact changes_overwrite hle fun k hk => splice_true_eq_false.trans (and_iff_right (by omega))

/-- A pointer that is stored inside the range belongs to the change. -/
theorem Changes.relocate (h : Changes offset size a b) {x : Nat} (hlow : offset ≤ x)
    (hhigh : (x : Int) + pointerSize ≤ offset + size) (target : Pointer) :
    Changes offset size a (b.relocate x target) := by
  refine ⟨h.length, h.align, h.packed, h.cells, h.marks, fun seen hcut hinside => ?_⟩
  have hx := hinside x hlow hhigh
  have hkept : (b.relocations.filter fun r => r.1 != x).filter (fun r => seen r.1)
      = b.relocations.filter fun r => seen r.1 := by
    refine (filter_filter ..).trans (filter_congr fun r _ => ?_)
    by_cases hr : r.1 = x
    · rw [hr, hx]
      rfl
    · simp [hr]
  rw [Allocation.relocate, filter_append, hkept, h.pointers seen hcut hinside]
  simp [hx]

theorem Changes.foldl_relocate (h : Changes offset size a b) (place : Nat → Nat)
    {moved : List (Nat × Pointer)} (hmoved : ∀ r ∈ moved,
      offset ≤ place r.1 ∧ (place r.1 : Int) + pointerSize ≤ offset + size) :
    Changes offset size a (moved.foldl (fun b (o, target) => b.relocate (place o) target) b) := by
  induction moved generalizing b with
  | nil => exact h
  | cons r moved ih =>
    obtain ⟨hlow, hhigh⟩ := hmoved r (by simp)
    exact ih (h.relocate hlow hhigh r.2) fun r' hr' => hmoved r' (by simp [hr'])

theorem changes_put_ptr (hle : (offset : Int) + pointerSize ≤ a.size) (target : Pointer) :
    Changes offset pointerSize a (a.put offset pointerSize (.ptr target)) := by
  let zeros : List Cell := replicate pointerSize (.known 0)
  have hwrite : Changes offset zeros.length a (a.write offset zeros) :=
    changes_write (by simpa [zeros] using mod_cast hle)
  rw [length_replicate] at hwrite
  exact hwrite.relocate (Nat.le_refl _) (Int.le_refl _) target

section Bounds

variable (hmarked : a.defined.length = a.cells.length)
include hmarked

theorem changes_mark (hpos : 0 ≤ size) (hle : (offset : Int) + size ≤ a.size) (defined : Bool) :
    Changes offset size a (a.mark offset size defined) := by
  cases defined with
  | false =>
    have hlength : (slice a.cells offset (offset + size)).length = size.toNat :=
      length_slice _ hpos hle
    have hdefined : (replicate size.toNat false).length
        = (slice a.cells offset (offset + size)).length := by simp [hlength]
    have hchanges := changes_of_marked hmarked hdefined
      (show offset + (slice a.cells offset (offset + size)).length ≤ a.size by omega)
    rwa [← mark_false_eq_overwrite hpos hle, hlength, Int.toNat_of_nonneg hpos] at hchanges
  | true =>
    have hstop : (offset : Int) + size = offset + size.toNat := by omega
    refine ⟨rfl, rfl, rfl, fun _ _ => rfl, fun k hk => ?_, fun _ _ _ => rfl⟩
    simp only [mark, hstop]
    exact splice_true_eq_false.trans (and_iff_right (by omega))

theorem changes_put (hpos : 0 ≤ size) (hle : (offset : Int) + size ≤ a.size)
    (hfits : v.misfit? size = none) : Changes offset size a (a.put offset size v) := by
  have hwrite {cells : List Cell} (hlength : (cells.length : Int) = size) :
      Changes offset size a (a.write offset cells) := by
    rw [← hlength]
    exact changes_write (by omega)
  cases v with
  | undef => exact changes_mark hmarked hpos hle false
  | ptr target =>
    obtain rfl : size = pointerSize := by simpa [Scalar.misfit?] using hfits
    exact changes_put_ptr hle target
  | cells list => exact hwrite (by simpa [Scalar.misfit?] using hfits)
  | bits pattern => exact hwrite (by rw [Cell.length_ofNat]; omega)

end Bounds

/-- A range that lies apart from a change shows what it did, unless a pointer has bytes in both. -/
theorem Changes.excerpt_eq (h : Changes offset size a b) {n : Int} (hn : 0 ≤ n)
    (hle : (start : Int) + n ≤ a.size)
    (hapart : size = 0 ∨ (start : Int) + n ≤ offset ∨ (offset : Int) + size ≤ start)
    (hclear : ∀ r ∈ a.relocations, overlaps offset (offset + size) r.1 = true →
      overlaps start (start + n) r.1 = false) : b.excerpt start n = a.excerpt start n := by
  have hlength : b.cells.length = a.cells.length := h.length
  unfold Allocation.size at hle
  have hcells : slice b.cells start (start + n) = slice a.cells start (start + n) :=
    slice_congr hn (by omega) hle fun k hk => h.cells _ (by omega)
  have hdefined : b.definedIn start (start + n) = a.definedIn start (start + n) := by
    rw [Bool.eq_iff_iff, definedIn_eq_true _ _ hn, definedIn_eq_true _ _ hn]
    refine forall_congr' fun k => forall_congr' fun hlow => forall_congr' fun hhigh => ?_
    rcases hapart with rfl | hapart
    · exact not_congr (h.marks k (by omega))
    · exact not_congr (h.marks k (by omega))
  have hpointers : b.pointersIn start (start + n) = a.pointersIn start (start + n) := by
    refine h.pointers _ hclear fun x hlow hhigh => ?_
    have hwidth : 0 < pointerSize := by decide
    simp only [overlaps, Bool.and_eq_false_iff, decide_eq_false_iff_not]
    omega
  rw [excerpt, excerpt, hcells, hdefined, hpointers]

end Allocation

namespace Memory

open Allocation

variable {m m' : Memory} {p : Pointer} {id offset : Nat} {a : Allocation} {size align : Int}

def excerpt (m : Memory) (p : Pointer) (size align : Int) : Except EvalError Excerpt :=
  (m.checked p size align).map fun x => x.2.2.excerpt x.2.1 size

/-- A value is read from what the access shows. -/
theorem readScalar_eq_bind (m : Memory) (p : Pointer) (size : Int) (kind : Kind) (align : Int) :
    m.readScalar p size kind align = m.excerpt p size align >>= (·.scalar size kind) := by
  unfold excerpt
  cases hchecked : m.checked p size align with
  | error e =>
    rw [readScalar, hchecked]
    rfl
  | ok x =>
    rw [readScalar_eq kind hchecked, scalarAt_eq]
    rfl

/-- Bytes are read from what the access shows, and no bytes are read from anywhere. -/
theorem readBytes_eq_bind (m : Memory) (p : Pointer) (size align : Int) :
    m.readBytes p size align =
      if size = 0 then .ok [] else m.excerpt p size align >>= Excerpt.bytes := by
  by_cases hsize : size = 0
  · rw [if_pos hsize, readBytes, if_pos hsize]
    rfl
  · rw [if_neg hsize, excerpt]
    cases hchecked : m.checked p size align with
    | error e =>
      rw [readBytes, if_neg hsize, hchecked]
      rfl
    | ok x =>
      rw [readBytes_eq hsize hchecked]
      simp only [Except.map, bind, Except.bind, Excerpt.bytes, pointers_excerpt_eq_nil]
      rfl

/-- Accesses that show the same are read with the same result. -/
theorem reads_eq_of_excerpt {p' : Pointer} (h : m'.excerpt p' size align = m.excerpt p size align) :
    m'.readBytes p' size align = m.readBytes p size align ∧
    ∀ kind, m'.readScalar p' size kind align = m.readScalar p size kind align := by
  refine ⟨?_, fun kind => ?_⟩
  · rw [readBytes_eq_bind, readBytes_eq_bind, h]
  · rw [readScalar_eq_bind, readScalar_eq_bind, h]

/-! ## Accesses -/

/-- An access that was checked before a change of what it accesses. -/
theorem of_checked {g : Nat → Allocation → Allocation} (h : (do
      let (id, offset, _) ← (← getThe Memory).checked p size align
      modify (update id (g offset)) : Run Memory Unit) m = .ok () m') :
    ∃ id offset a, m.checked p size align = .ok (id, offset, a) ∧ m' = m.update id (g offset) := by
  rw [bind_of_ok (getThe_apply m)] at h
  obtain ⟨⟨id, offset, a⟩, hchecked, ⟨⟩⟩ := liftBind_eq_ok.1 h
  exact ⟨id, offset, a, hchecked, rfl⟩

theorem markDefinedness_eq_ok {defined : Bool} (hsize : size ≠ 0)
    (h : markDefinedness p size defined m = .ok () m') :
    ∃ id offset a, m.checked p size 1 = .ok (id, offset, a) ∧
      m' = m.update id fun a => a.mark offset size defined := by
  unfold markDefinedness at h
  rw [if_neg hsize] at h
  exact of_checked (g := fun offset a => a.mark offset size defined) h

theorem writeBytes_eq_ok {cells : List Cell} (hcells : cells ≠ [])
    (h : writeBytes p cells align m = .ok () m') :
    ∃ id offset a, m.checked p cells.length align = .ok (id, offset, a) ∧
      m' = m.update id fun a => a.write offset cells := by
  unfold writeBytes at h
  rw [if_neg (by simpa using hcells)] at h
  exact of_checked (g := fun offset a => a.write offset cells) h

/-- A value that fits its slot takes the place of what was there. -/
theorem writeScalar_eq (hsize : 0 ≤ size) (hchecked : m.checked p size align = .ok (id, offset, a))
    (v : Scalar) : writeScalar p v size align m = match v.misfit? size with
      | some e => .error (.error e) m
      | none => .ok () (if size = 0 then m else m.update id fun a => a.put offset size v) := by
  have hone := checked_one hchecked
  -- the bytes are written without a look at alignment, to the place that was checked
  have hbytes {cells : List Cell} (hlength : (cells.length : Int) = size) :
      writeBytes p cells 1 m
        = .ok () (if size = 0 then m else m.update id fun a => a.write offset cells) := by
    by_cases hcells : cells = []
    · subst hcells
      rw [if_pos (show size = 0 from hlength.symm)]
      rfl
    · have hpos := length_pos_iff.2 hcells
      rw [← hlength] at hone
      rw [if_neg (by omega), writeBytes_eq hcells hone]
  cases v with
  | undef =>
    rw [writeScalar, bind_of_ok (getThe_apply m), hchecked]
    change markDefinedness p size false m = _
    by_cases hzero : size = 0
    · rw [markDefinedness, if_pos hzero]
      simp only [Scalar.misfit?, if_pos hzero]
      rfl
    · rw [markDefinedness, if_neg hzero, bind_of_ok (getThe_apply m), hone]
      simp only [Scalar.misfit?, if_neg hzero]
      rfl
  | ptr target =>
    by_cases hwidth : size = pointerSize
    · subst hwidth
      rw [writeScalar_ptr_eq hchecked target]
      rfl
    · rw [writeScalar, bind_of_ok (getThe_apply m), hchecked]
      simp only [Scalar.misfit?, hwidth, ne_eq, not_false_eq_true, if_true, if_false]
      rfl
  | cells list =>
    rw [writeScalar, bind_of_ok (getThe_apply m), hchecked]
    by_cases hwidth : (list.length : Int) = size
    · simp only [Scalar.misfit?, hwidth, ne_eq, not_true_eq_false, if_false, if_true]
      exact hbytes hwidth
    · simp only [Scalar.misfit?, hwidth, ne_eq, not_false_eq_true, if_true, if_false]
      rfl
  | bits pattern =>
    rw [writeScalar, bind_of_ok (getThe_apply m), hchecked]
    simp only [show ¬ size < 0 by omega, if_false]
    refine hbytes ?_
    rw [Cell.length_ofNat]
    omega

theorem writeScalar_eq_ok (hsize : 0 ≤ size) (h : writeScalar p v size align m = .ok () m') :
    ∃ id offset a, m.checked p size align = .ok (id, offset, a) ∧ v.misfit? size = none ∧
      m' = if size = 0 then m else m.update id fun a => a.put offset size v := by
  have hfirst := h
  unfold writeScalar at hfirst
  rw [bind_of_ok (getThe_apply m)] at hfirst
  obtain ⟨⟨id, offset, a⟩, hchecked, -⟩ := liftBind_eq_ok.1 hfirst
  refine ⟨id, offset, a, hchecked, ?_⟩
  rw [writeScalar_eq hsize hchecked] at h
  split at h
  · cases h
  · rename_i hfits
    cases h
    exact ⟨hfits, rfl⟩

theorem checked_of_find (hfind : m.find? id = some a) (n k : Int) : m.checked (.known id offset) n k =
    if (a.size : Int) < offset + n then .error (.accessOutside n id offset a.size)
    else if 1 < k && !a.isPacked offset n && (a.align < k || offset % k ≠ 0) then
      .error (.misaligned id offset k)
    else .ok (id, offset, a) := by
  simp only [checked, get_eq_ok.2 hfind]
  by_cases hout : (a.size : Int) < offset + n
  · rw [if_pos hout]
    exact if_pos hout
  · rw [if_neg hout]
    refine (if_neg hout).trans ?_
    split <;> rfl

/-- A change of contents changes no check: that looks at the size, the alignment and the exemptions of
an allocation only. -/
theorem checked_update {f : Allocation → Allocation}
    (hf : ∀ a, m.find? id = some a → Changes start size a (f a)) (q : Pointer) (n k : Int) :
    (m.update id f).checked q n k
      = (m.checked q n k).map fun x => (x.1, x.2.1, if x.1 = id then f x.2.2 else x.2.2) := by
  cases q with
  | symbolic id' o => rfl
  | known id' o =>
    have hfound := find?_update m id f id'
    cases hfind : m.find? id' with
    | none =>
      rw [hfind] at hfound
      simp only [checked, get, hfind, hfound]
      rfl
    | some a =>
      rw [hfind] at hfound
      obtain ⟨hsize, halign, hexempt⟩ : (if id' = id then f a else a).size = a.size ∧
          (if id' = id then f a else a).align = a.align ∧
          (if id' = id then f a else a).packed = a.packed := by
        split
        · rename_i hid
          have hchanges := hf a (hid ▸ hfind)
          exact ⟨hchanges.length, hchanges.align, hchanges.packed⟩
        · exact ⟨rfl, rfl, rfl⟩
      have hpacked : (if id' = id then f a else a).isPacked o n = a.isPacked o n := by
        rw [isPacked, hexempt, isPacked]
      rw [checked_of_find hfound, checked_of_find hfind, hsize, halign, hpacked,
        apply_ite (Except.map _), apply_ite (Except.map _)]
      rfl

end Memory

/-! ## Reading what was written -/

namespace Scalar

/-- What a value is when it is read back as one of a kind. -/
def stored (kind : Kind) : Scalar → Scalar
  | bits pattern => ofBits pattern.toNat kind
  | cells list => ofCells list kind
  | v => v

theorem ofCells_ofNat (n : Nat) (kind : Kind) :
    ofCells (Cell.ofNat n kind.numBytes) kind = ofBits n kind := by
  rw [← Memory.ground_ofNat (v := fun _ => 0), ofCells_ground, Cell.valueOf_ofNat, pow_numBytes]
  apply ofBits_congr
  apply BitVec.eq_of_toNat_eq
  rw [BitVec.ofInt_natCast, BitVec.ofInt_natCast, BitVec.toNat_ofNat, BitVec.toNat_ofNat, Nat.mod_mod]

end Scalar

namespace Allocation

/-- A pointer that was stored shows as the only one, at the start of its bytes. -/
theorem pointers_put_ptr (a : Allocation) (offset : Nat) (target : Pointer) :
    ((a.put offset pointerSize (.ptr target)).excerpt offset pointerSize).pointers = [(0, target)] := by
  have hnone : (a.write offset (replicate pointerSize (.known 0))).pointersIn offset
      (offset + pointerSize) = [] := by
    have hcleared := a.pointersIn_overwrite offset (replicate pointerSize (.known 0))
      (replicate pointerSize true)
    rw [length_replicate] at hcleared
    rwa [write_eq_overwrite, length_replicate]
  simp only [excerpt, put]
  rw [pointersIn_relocate hnone (by simp [overlaps, pointerSize])]
  simp

variable {a : Allocation} {offset : Nat} {size : Int}

/-- Bytes that were written show as they were given. -/
theorem excerpt_write {cells : List Cell} (hle : offset + cells.length ≤ a.size) :
    (a.write offset cells).excerpt offset cells.length = ⟨cells, true, []⟩ := by
  have hdefined : (a.write offset cells).definedIn offset (offset + cells.length) := by
    refine (definedIn_eq_true _ _ (Int.natCast_nonneg _)).2 fun k hlow hhigh hmark => ?_
    exact (splice_true_eq_false.1 (write_eq_overwrite a offset cells ▸ hmark)).1 (by omega)
  rw [excerpt, hdefined, write_eq_overwrite, pointersIn_overwrite, map_nil]
  exact congrArg (Excerpt.mk · true []) (slice_splice hle)

variable (hmarked : a.defined.length = a.cells.length)
include hmarked

/-- Bytes that were made undefined show as such, and no pointer is left there. -/
theorem excerpt_mark_false (hsize : 0 < size) (hle : (offset : Int) + size ≤ a.size) :
    (a.mark offset size false).excerpt offset size
      = ⟨slice a.cells offset (offset + size), false, []⟩ := by
  have hlength : (slice a.cells offset (offset + size)).length = size.toNat :=
    length_slice _ hsize.le hle
  have hdefined : (replicate size.toNat false).length
      = (slice a.cells offset (offset + size)).length := by simp [hlength]
  have hshown := excerpt_overwrite hmarked hdefined
    (show offset + (slice a.cells offset (offset + size)).length ≤ a.size by omega)
  rw [← mark_false_eq_overwrite hsize.le hle, hlength, Int.toNat_of_nonneg hsize.le] at hshown
  rw [hshown, all_replicate, if_neg (by omega)]
  rfl

/-- What was written shows as the value that was given. -/
theorem scalar_put {kind : Kind} (hsize : 0 < size) (hle : (offset : Int) + size ≤ a.size)
    (hfits : v.misfit? size = none) (hkind : size = kind.numBytes ∨ v.isPtr = true) :
    ((a.put offset size v).excerpt offset size).scalar size kind = .ok (v.stored kind) := by
  -- known or symbolic bytes are shown as they were given
  have hwrite (cells : List Cell) (hlength : (cells.length : Int) = size) :
      ((a.write offset cells).excerpt offset size).scalar size kind = .ok (.ofCells cells kind) := by
    rw [← hlength, excerpt_write (by omega)]
    rfl
  cases v with
  | undef =>
    rw [put, excerpt_mark_false hmarked hsize hle]
    rfl
  | ptr target =>
    obtain rfl : size = pointerSize := by simpa [Scalar.misfit?] using hfits
    rw [Excerpt.scalar, pointers_put_ptr]
    rfl
  | cells list => exact hwrite list (by simpa [Scalar.misfit?] using hfits)
  | bits pattern =>
    obtain rfl : size = kind.numBytes := by simpa [Scalar.isPtr] using hkind
    have hshown := hwrite (Cell.ofNat pattern.toNat kind.numBytes) (by simp [Cell.length_ofNat])
    rwa [Scalar.ofCells_ofNat] at hshown

end Allocation

/-- What was written is read back: numbers and cells as the kind says, pointers and undefined bytes as
they were given. Nothing that was in the memory before has a part in it. A pointer is read back at any
kind. -/
theorem Memory.readScalar_written {m m' : Memory} (hm : m.Regular) {p : Pointer} {v : Scalar}
    {size align : Int} {kind : Kind} (hkind : size = kind.numBytes)
    (h : writeScalar p v size align m = .ok () m') :
    m'.readScalar p size kind align = .ok (v.stored kind) ∧
    ∀ target, v = .ptr target → size = pointerSize ∧
      ∀ kind', m'.readScalar p size kind' align = .ok (.ptr target) := by
  have hsize : 0 < size := by
    have := kind.numBytes_pos
    omega
  obtain ⟨id, offset, a, hchecked, hfits, hput⟩ := writeScalar_eq_ok hsize.le h
  rw [if_neg hsize.ne'] at hput
  subst hput
  obtain ⟨rfl, hfind, hle⟩ := checked_eq_ok hchecked
  have hmarked := (hm.allocs _ (mem_of_lookup hfind)).marked
  have hagain : (m.update id fun a => a.put offset size v).checked (.known id offset) size align
      = .ok (id, offset, a.put offset size v) := by
    have hput : ∀ b, m.find? id = some b → Allocation.Changes offset size b (b.put offset size v) := by
      intro b hb
      cases hfind.symm.trans hb
      exact Allocation.changes_put hmarked hsize.le hle hfits
    rw [checked_update hput, hchecked]
    simp [Except.map]
  have hread {kind' : Kind} (hkind' : size = kind'.numBytes ∨ v.isPtr = true) :
      (m.update id fun a => a.put offset size v).readScalar (.known id offset) size kind' align
        = .ok (v.stored kind') := by
    rw [readScalar_eq_bind, excerpt, hagain]
    exact Allocation.scalar_put hmarked hsize hle hfits hkind'
  refine ⟨hread (.inl hkind), ?_⟩
  rintro target rfl
  exact ⟨by simpa [Scalar.misfit?] using hfits, fun kind' => hread (.inr rfl)⟩

/-- A computation that gives a result ends in some state. -/
theorem Run.exists_of_run' {σ : Type} {act : Run σ α} {s : σ} {r : α} (h : act.run' s = some r) :
    ∃ s', act s = .ok r s' := by
  delta EStateM.run' EStateM.run at h
  cases hact : act s with
  | ok r' s' =>
    rw [hact] at h
    cases h
    exact ⟨s', rfl⟩
  | error e s' =>
    rw [hact] at h
    cases h

theorem Memory.regular_sample : (after 64 sample).1.Regular := by
  have hsizes : ∀ op ∈ sample, 0 ≤ op.size := by decide
  exact (history_after (show (0 : Int) ≤ 64 by decide) hsizes).1.valid.regular

theorem Memory.stored_sample {a : Allocation} (hfind : (after 64 sample).1.find? 1 = some a) :
    a.relocations.map Prod.fst = [0, 16] := by
  have hstored : ((after 64 sample).1.find? 1).map (·.relocations.map Prod.fst) = some [0, 16] := by
    decide +kernel
  rw [hfind] at hstored
  exact Option.some.inj hstored

/-- A number over the end of a pointer, and a pointer over the end of another one. -/
theorem Memory.readScalar_written_sample :
    let m := (after 64 sample).1
    m.Regular ∧ (∀ a, m.find? 1 = some a → a.relocations.map Prod.fst = [0, 16]) ∧
    (∃ m', writeScalar (.known 1 22) (.ofNat 0xfffe) 2 2 m = .ok () m' ∧
      m'.readScalar (.known 1 22) 2 (.int .w16 true) 2 = .ok (.ofInt (-2))) ∧
    ∃ m', writeScalar (.known 1 4) (.ptr (.known 2 1)) 8 1 m = .ok () m' ∧
      ∀ kind, m'.readScalar (.known 1 4) 8 kind 1 = .ok (.ptr (.known 2 1)) := by
  obtain ⟨m1, hnumber⟩ : ∃ m', writeScalar (.known 1 22) (.ofNat 0xfffe) 2 2 (after 64 sample).1
      = .ok () m' := exists_of_run' (by decide +kernel)
  obtain ⟨m2, hptr⟩ : ∃ m', writeScalar (.known 1 4) (.ptr (.known 2 1)) 8 1 (after 64 sample).1
      = .ok () m' := exists_of_run' (by decide +kernel)
  refine ⟨regular_sample, fun a => stored_sample, ⟨m1, hnumber, ?_⟩, ⟨m2, hptr, ?_⟩⟩
  · have hkind : (2 : Int) = (Kind.int .w16 true).numBytes := rfl
    have hminus : (Scalar.ofNat 0xfffe).stored (.int .w16 true) = .ofInt (-2) := by decide +kernel
    rw [(readScalar_written regular_sample hkind hnumber).1, hminus]
  · have hkind : (8 : Int) = Kind.ptr.numBytes := rfl
    exact ((readScalar_written regular_sample hkind hptr).2 _ rfl).2

end SymExec

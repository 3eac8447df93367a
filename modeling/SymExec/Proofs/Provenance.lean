import SymExec.Proofs.Origin

/-!
# Where bytes come from

Which bytes belong to a pointer can be told from the operations alone, by following each byte from
where it was written to where it was copied (`Memory.provenance`). What a read gives is compared with
that (`Memory.pointer_bytes_after`).

A pointer whose bytes are written or copied only together stays whole: its bytes are never read as
data. Of a pointer that was cut, remnants are left in memory or in a copy. They are read as data, and
are all zero.
-/
namespace SymExec

open Run List

namespace Memory

variable {align size : Int} {α : Type} {kind : Kind} {ops : List Op} {cells : List Cell}

/-- Where each byte comes from, by the number of its allocation and its offset. -/
def Provenance : Type := Nat → Nat → Origin

namespace Provenance

/-- The bytes of one allocation come from elsewhere. -/
def set (s : Provenance) (id : Nat) (row : Nat → Origin) : Provenance :=
  fun id' => if id' = id then row else s id'

def write (s : Provenance) (p : Pointer) (length : Nat) (new : Nat → Origin) : Provenance :=
  match p with
  | .known id offset => s.set id (Origin.overwritten (s id) offset length new)
  | .symbolic _ _ => s

/-- The bytes at a pointer become undefined. -/
def erase (s : Provenance) (p : Pointer) (length : Nat) : Provenance :=
  match p with
  | .known id offset => s.set id fun x => (s id x).cut offset (offset + length) x
  | .symbolic _ _ => s

def copy (s : Provenance) (p : Pointer) (length : Nat) (k : Nat) : Origin :=
  match p with
  | .known id offset => (s id (offset + k)).copied offset (offset + length) (offset + k)
  | .symbolic _ _ => .data

end Provenance

/-- Where bytes come from after an operation that returned. -/
def Op.trace (op : Op) (next : Nat) (s : Provenance) : Provenance :=
  match op with
  | allocate _ _ _ | allocateAbstract _ _ | allocateStatic _ => s.set next fun _ => .data
  | deallocate _ _ | markPacked _ _ | markDefinedness _ _ true => s
  | markDefinedness p size false | writeScalar p .undef size _ => s.erase p size.toNat
  | writeScalar p (.ptr target) _ _ => s.write p pointerSize (.part target)
  | copyBytes source dest size _ => s.write dest size.toNat (s.copy source size.toNat)
  | writeBytes p _ _ | writeRepeat p _ _ _ | makeSymbolic p _ | writeScalar p _ _ _ =>
    s.write p op.size.toNat fun _ => .data

/-- Where bytes come from after operations; one that raises leaves them as they are. -/
def trace (m : Memory) (s : Provenance) : List Op → Provenance
  | [] => s
  | op :: ops =>
    match op.run m with
    | .ok _ m' => m'.trace (op.trace m.next s) ops
    | .error _ m' => m'.trace s ops

/-- Where the bytes of a memory come from that was fresh before the operations. -/
def provenance (limit : Int) (ops : List Op) : Provenance :=
  trace { limit := limit } (fun _ _ => .data) ops

/-! ## Operations -/

open Allocation Origin

variable {a : Allocation} {row : Nat → Origin} {offset : Nat}
variable {m m' : Memory} {s s' : Provenance} {id : Nat} {p : Pointer}

structure Tracks (m : Memory) (s : Provenance) : Prop where
  regular : m.Regular
  rows : ∀ x ∈ m.allocs, Follows x.2 (s x.1)

section

variable (h : m.Tracks s)
include h

theorem Tracks.update (hfind : m.find? id = some a) {f : Allocation → Allocation}
    (hkept : (f a).region = a.region ∧ (f a).align = a.align)
    (hf : a.Valid → (f a).Valid ∧ (f a).size = a.size)
    (hrow : a.Valid → Follows a (s id) → Follows (f a) row) :
    (m.update id f).Tracks (s.set id row) := by
  refine ⟨(rewritten_update h.regular hfind hkept hf).regular, fun y hy => ?_⟩
  obtain ⟨x, hx, rfl⟩ := mem_update.1 hy
  by_cases hid : x.1 = id
  · subst hid
    obtain rfl := eq_of_lookup h.regular.ordered.increasing hfind x hx rfl
    simp only [Provenance.set, if_true]
    exact hrow (h.regular.allocs x hx) (h.rows x hx)
  · simp only [Provenance.set, hid, if_false]
    exact h.rows x hx

theorem Tracks.store (store : Store) : { m with store := store }.Tracks s :=
  ⟨(rewritten_store h.regular store).regular, h.rows⟩

/-- A computation that returns brings `s` to `s'`, and one that raises leaves it. -/
def Brings {α : Type} (act : Run Memory α) (m : Memory) (s s' : Provenance) : Prop :=
  match act m with
  | .ok _ m' => m'.Tracks s'
  | .error _ m' => m'.Tracks s

omit h in
theorem Brings.bindPure {β : Type} {act : Run Memory α} {f : α → β} (h : Brings act m s s') :
    Brings (do return f (← act)) m s s' := by
  unfold Brings at h ⊢
  cases hact : act m with
  | ok a m1 =>
    rw [hact] at h
    rw [bind_of_ok hact]
    exact h
  | error e m1 =>
    rw [hact] at h
    rw [bind_of_error hact]
    exact h

theorem Brings.checked {f : Nat × Nat × Allocation → Run Memory α}
    (hf : ∀ id offset a, m.checked p size align = .ok (id, offset, a) → Brings (f (id, offset, a)) m s s') :
    Brings (do
      let m ← getThe Memory
      let x ← m.checked p size align
      f x) m s s' := by
  unfold Brings
  rw [bind_of_ok (getThe_apply m)]
  cases hchecked : m.checked p size align with
  | ok x => exact hf x.1 x.2.1 x.2.2 hchecked
  | error e => exact h

omit h in
theorem set_self (s : Provenance) (id : Nat) : s.set id (s id) = s := by
  funext id'
  simp only [Provenance.set]
  split
  · rename_i hid
    rw [hid]
  · rfl

omit h in
theorem write_zero (s : Provenance) (p : Pointer) (new : Nat → Origin) : s.write p 0 new = s := by
  cases p with
  | symbolic _ _ => rfl
  | known id offset =>
    refine (congrArg (s.set id) (funext fun x => ?_)).trans (set_self s id)
    exact (overwritten_of_not_mem (by omega)).trans (cut_empty x _)

omit h in
theorem erase_zero (s : Provenance) (p : Pointer) : s.erase p 0 = s := by
  cases p with
  | symbolic _ _ => rfl
  | known id offset =>
    exact (congrArg (s.set id) (funext fun x => cut_empty x _)).trans (set_self s id)

theorem brings_writeBytes (p : Pointer) (cells : List Cell) (align : Int) :
    Brings (writeBytes p cells align) m s (s.write p cells.length fun _ => .data) := by
  unfold writeBytes
  by_cases hcells : cells = []
  · subst hcells
    rw [length_nil, write_zero]
    exact h
  · rw [if_neg (by simpa using hcells)]
    refine .checked h fun id offset a hchecked => ?_
    obtain ⟨rfl, hfind, hbounds⟩ := checked_eq_ok hchecked
    exact h.update hfind ⟨rfl, rfl⟩ (fun ha => valid_write ha (by omega))
      fun ha hrow => hrow.write ha hcells (by omega)

theorem brings_writeRepeat (p : Pointer) (cell : Cell) (count align : Int) :
    Brings (writeRepeat p cell count align) m s (s.write p count.toNat fun _ => .data) := by
  unfold writeRepeat
  by_cases hmax : maxCells ≤ count
  · simp only [hmax, if_true]
    exact h
  by_cases hcount : count ≤ 0
  · simp only [hmax, hcount, if_true, if_false]
    rw [Int.toNat_of_nonpos hcount, write_zero]
    exact h
  · simp only [hmax, hcount, if_false]
    have hlength : (replicate count.toNat cell).length = count.toNat := length_replicate
    refine .checked h fun id offset a hchecked => ?_
    obtain ⟨rfl, hfind, hbounds⟩ := checked_eq_ok hchecked
    have hle : offset + (replicate count.toNat cell).length ≤ a.size := by omega
    have hcells : replicate count.toNat cell ≠ [] := by
      rw [← length_pos_iff]
      omega
    refine h.update hfind ⟨rfl, rfl⟩ (fun ha => valid_write ha hle) fun ha hrow => ?_
    have hwrite := hrow.write ha hcells hle
    rwa [hlength] at hwrite

theorem brings_markDefinedness (p : Pointer) (hsize : 0 ≤ size) (defined : Bool) :
    Brings (markDefinedness p size defined) m s (if defined then s else s.erase p size.toNat) := by
  unfold markDefinedness
  by_cases hzero : size = 0
  · rw [if_pos hzero, hzero, Int.toNat_zero, erase_zero, ite_self]
    exact h
  · rw [if_neg hzero]
    refine .checked h fun id offset a hchecked => ?_
    obtain ⟨rfl, hfind, hbounds⟩ := checked_eq_ok hchecked
    cases defined with
    | false =>
      exact h.update hfind ⟨rfl, rfl⟩ (fun ha => ha.mark hsize hbounds false)
        fun ha hrow => hrow.erase ha (by omega)
    | true =>
      have hsame := h.update hfind (f := fun a => a.mark offset size true) ⟨rfl, rfl⟩
        (fun ha => ha.mark hsize hbounds true) fun _ hrow => hrow.of_eq rfl rfl
      rwa [set_self] at hsame

theorem brings_markPacked (p : Pointer) (hsize : 0 ≤ size) : Brings (markPacked p size) m s s := by
  unfold markPacked
  refine .checked h fun id offset a hchecked => ?_
  obtain ⟨rfl, hfind, hbounds⟩ := checked_eq_ok hchecked
  have hsame := h.update hfind (f := fun a => { a with packed := a.packed ++ [(offset, size)] })
    ⟨rfl, rfl⟩
    (fun ha => ⟨valid_pack ha hsize hbounds, rfl⟩) fun _ hrow => hrow.of_eq rfl rfl
  rwa [set_self] at hsame

theorem brings_makeSymbolic (p : Pointer) (size : Int) :
    Brings (makeSymbolic p size) m s (s.write p size.toNat fun _ => .data) := by
  have hlength : (Store.cellsFrom m.store.size size.toNat).length = size.toNat := by
    simp [Store.cellsFrom]
  have hwrite := brings_writeBytes (h.store (m.store.extend [.input size.toNat])) p
    (Store.cellsFrom m.store.size size.toNat) 1
  rwa [hlength] at hwrite

theorem brings_copyBytes (source dest : Pointer) (hsize : 0 ≤ size) (align : Int) :
    Brings (copyBytes source dest size align) m s
      (s.write dest size.toNat (s.copy source size.toNat)) := by
  unfold copyBytes
  by_cases hzero : size = 0
  · rw [if_pos hzero, hzero, Int.toNat_zero, write_zero]
    exact h
  · rw [if_neg hzero]
    refine .checked h fun id1 start a hsource => ?_
    obtain ⟨rfl, hfrom, hstart⟩ := checked_eq_ok hsource
    have ha := mem_of_lookup hfrom
    unfold Brings
    cases hdest : m.checked dest size align with
    | error e => exact h
    | ok x =>
      obtain ⟨id, offset, b⟩ := x
      obtain ⟨rfl, hto, hoffset⟩ := checked_eq_ok hdest
      refine h.update hto (Allocation.kept_foldl _ (fun o => offset + (o - start)) _)
        (fun hb => valid_received (h.regular.allocs _ ha) hb hsize hstart hoffset) fun hb hrow => ?_
      exact follows_received (h.regular.allocs _ ha) (h.rows _ ha) hb hrow (by omega) hstart hoffset

theorem brings_writePointer (p target : Pointer) (align : Int) :
    Brings (writeScalar p (.ptr target) pointerSize align) m s
      (s.write p pointerSize (.part target)) := by
  cases hchecked : m.checked p pointerSize align with
  | ok x =>
    obtain ⟨rfl, hfind, hbounds⟩ := checked_eq_ok hchecked
    unfold Brings
    rw [writeScalar_ptr_eq hchecked target]
    exact h.update hfind ⟨rfl, rfl⟩ (fun ha => valid_relocate_write ha (by omega) target)
      fun ha hrow => hrow.store ha (by omega) target
  | error e =>
    refine .checked h fun id offset a hok => ?_
    rw [hchecked] at hok
    cases hok

theorem brings_writeScalar (p : Pointer) (v : Scalar) (hsize : 0 ≤ size) (align : Int) :
    Brings (writeScalar p v size align) m s
      ((Op.writeScalar p v size align).trace m.next s) := by
  by_cases hpointer : size = pointerSize ∧ ∃ target, v = .ptr target
  · obtain ⟨rfl, target, rfl⟩ := hpointer
    exact brings_writePointer h p target align
  refine .checked h fun id offset a hchecked => ?_
  cases v with
  | undef => exact brings_markDefinedness h p hsize false
  | cells list =>
    by_cases hwidth : (list.length : Int) = size
    · subst hwidth
      simp only [ne_eq, not_true_eq_false, if_false]
      exact brings_writeBytes h p list 1
    · simp only [ne_eq, hwidth, not_false_eq_true, if_true]
      exact h
  | bits pattern =>
    have hwrite := brings_writeBytes h p (Cell.ofNat pattern.toNat size.toNat) 1
    rw [Cell.length_ofNat] at hwrite
    simp only [show ¬ size < 0 by omega, if_false]
    exact hwrite
  | ptr target =>
    have hwidth : size ≠ pointerSize := fun hwidth => hpointer ⟨hwidth, target, rfl⟩
    simp only [ne_eq, hwidth, not_false_eq_true, if_true]
    exact h

/-- An allocation that is new holds no pointer. -/
theorem Tracks.add (ha : a.Valid) (hempty : a.relocations = []) (usage : Int) :
    { m with next := m.next + 1, usage := usage, allocs := m.allocs ++ [(m.next, a)] }.Tracks
      (s.set m.next fun _ => .data) := by
  refine ⟨regular_add h.regular ha usage, fun x hx => ?_⟩
  rcases mem_append.1 hx with hx | hx
  · have hne : x.1 ≠ m.next := Nat.ne_of_lt (h.regular.ordered.below x hx)
    simp only [Provenance.set, hne, if_false]
    exact h.rows x hx
  · rw [mem_singleton.1 hx]
    simp only [Provenance.set, if_true]
    exact ⟨by simp [hempty], by simp⟩

theorem brings_allocate (size align : Int) (region : Region) :
    Brings (allocate size align region) m s (s.set m.next fun _ => .data) := by
  unfold Brings
  rw [allocate_eq, failReporting_apply]
  split_ifs with halign hfree hmax
  · exact h
  · exact h
  · exact h
  · exact ⟨regular_skip h.regular, h.rows⟩
  · exact h.add (valid_fresh size align region) rfl _

/-- An allocation that is new is given contents. -/
theorem Tracks.fill {region : Region} (hallocate : allocate size align region m = .ok p m')
    (store : Store) (hlength : cells.length = size.toNat) :
    ({ m' with store := store }.update p.alloc fun a =>
      { a with cells := cells, defined := replicate cells.length true }).Tracks
        (s.set m.next fun _ => .data) := by
  have hregular := (rewritten_filled h.regular hallocate store hlength).regular
  obtain ⟨rfl, rfl⟩ := allocate_eq_ok hallocate
  have hnew := h.add (valid_fresh size align region) rfl (m.usage + size)
  refine ⟨hregular, fun y hy => ?_⟩
  obtain ⟨x, hx, rfl⟩ := mem_update.1 hy
  have hrow := hnew.rows x hx
  by_cases hid : x.1 = m.next
  · simp only [Provenance.set, Pointer.alloc, hid, if_true] at hrow ⊢
    exact ⟨hrow.part, by simp⟩
  · simp only [Pointer.alloc, hid, if_false]
    exact hrow

theorem brings_allocateAbstract (size align : Int) :
    Brings (allocateAbstract size align) m s (s.set m.next fun _ => .data) := by
  have hnew := brings_allocate h size align .abstract
  unfold Brings at hnew ⊢
  unfold allocateAbstract
  cases hallocate : allocate size align .abstract m with
  | error e m1 =>
    rw [hallocate] at hnew
    rw [bind_of_error hallocate]
    exact hnew
  | ok p m1 =>
    rw [bind_of_ok hallocate]
    exact h.fill hallocate _ (by simp [Store.cellsFrom])

theorem brings_allocateStatic (data : List (BitVec 8)) :
    Brings (allocateStatic data) m s (s.set m.next fun _ => .data) := by
  have hnew := brings_allocate h data.length 1 .static
  unfold Brings at hnew ⊢
  unfold allocateStatic
  cases hallocate : allocate data.length 1 .static m with
  | error e m1 =>
    rw [hallocate] at hnew
    rw [bind_of_error hallocate]
    exact hnew
  | ok p m1 =>
    rw [bind_of_ok hallocate]
    exact h.fill hallocate m1.store (by simp)

theorem brings_deallocate (p : Pointer) (region : Option Region) :
    Brings (deallocate p region) m s s := by
  have hfree (id : Nat) (a : Allocation) : (m.free id a).Tracks s :=
    ⟨regular_free h.regular id a, fun x hx => h.rows x (mem_of_mem_filter hx)⟩
  match p with
  | .known id 0 =>
    unfold Brings
    rw [deallocate_eq]
    grind
  | .known id (n + 1) => exact h
  | .symbolic id o => exact h

theorem Op.brings_run {op : Op} (hop : 0 ≤ op.size) : Brings op.run m s (op.trace m.next s) := by
  cases op with
  | allocate size align region => exact (brings_allocate h size align region).bindPure
  | allocateAbstract size align => exact (brings_allocateAbstract h size align).bindPure
  | allocateStatic data => exact (brings_allocateStatic h data).bindPure
  | deallocate p region => exact (brings_deallocate h p region).bindPure
  | markPacked p size => exact (brings_markPacked h p hop).bindPure
  | writeBytes p cells align => exact (brings_writeBytes h p cells align).bindPure
  | writeRepeat p cell count align => exact (brings_writeRepeat h p cell count align).bindPure
  | markDefinedness p size defined =>
    have hmark := (brings_markDefinedness h p hop defined).bindPure (f := fun _ => (none : Option Nat))
    cases defined <;> exact hmark
  | makeSymbolic p size => exact (brings_makeSymbolic h p size).bindPure
  | copyBytes source dest size align => exact (brings_copyBytes h source dest hop align).bindPure
  | writeScalar p v size align => exact (brings_writeScalar h p v hop align).bindPure

end

/-- Operations are followed one by one. -/
theorem Tracks.foldl (hops : ∀ op ∈ ops, 0 ≤ op.size) {state : Memory × List Nat}
    (h : state.1.Tracks s) :
    (ops.foldl (fun state op => op.apply state) state).1.Tracks (state.1.trace s ops) := by
  induction ops generalizing state s with
  | nil => exact h
  | cons op ops ih =>
    have hfirst := Op.brings_run h (hops op (by simp))
    have hrest : ∀ op ∈ ops, 0 ≤ op.size := fun op hop => hops op (by simp [hop])
    unfold Brings at hfirst
    rw [foldl_cons, trace, Op.apply]
    cases hrun : op.run state.1 with
    | ok number m | error e m =>
      rw [hrun] at hfirst
      exact ih hrest hfirst

theorem tracks_after (limit : Int) (hops : ∀ op ∈ ops, 0 ≤ op.size) :
    (after limit ops).1.Tracks (provenance limit ops) :=
  Tracks.foldl hops ⟨⟨⟨.nil, by simp⟩, by simp⟩, by simp⟩

/-! ## Reads -/

namespace Provenance

/-- A byte of the range is part of a pointer that is whole. -/
def Holds (s : Provenance) (id offset : Nat) (size : Int) : Prop :=
  ∃ k : Nat, (k : Int) < size ∧ ∃ target index, s id (offset + k) = .part target index

/-- The bytes of the range are those of one pointer. -/
def IsPointer (s : Provenance) (id offset : Nat) (size : Int) (target : Pointer) : Prop :=
  size = pointerSize ∧ ∀ k < pointerSize, s id (offset + k) = .part target k

end Provenance

theorem readBytes_of_defined {id : Nat} (hsize : 0 ≤ size)
    (h : m.checked p size align = .ok (id, offset, a))
    (hnone : a.relocationsIn offset (offset + size) = [])
    (hdefined : a.definedIn offset (offset + size)) :
    m.readBytes p size align = .ok (Section.slice a.cells offset (offset + size)) := by
  by_cases hzero : size = 0
  · have hlength := Section.length_slice a.cells hsize (checked_eq_ok h).2.2
    rw [hzero, Int.toNat_zero, length_eq_zero_iff] at hlength
    rw [hzero, hlength]
    rfl
  · rw [readBytes_eq hzero h, if_pos hnone, if_pos hdefined]

/-- Where pointers are found, one is read whole or none is read. -/
theorem scalarAt_of_ne_nil (hfound : a.relocationsIn offset (offset + size) ≠ []) :
    scalarAt a offset size kind = .error .pointerAsBytes ∨
      ∃ target, a.relocations.lookup offset = some target ∧ size = pointerSize ∧
        scalarAt a offset size kind = .ok (.ptr target) := by
  unfold scalarAt
  split
  · contradiction
  · split
    · rename_i target hlookup
      split
      · rename_i hwhole
        exact .inr ⟨target, hlookup, hwhole.2, rfl⟩
      · exact .inl rfl
    · exact .inl rfl

theorem scalarAt_of_eq_nil (hnone : a.relocationsIn offset (offset + size) = []) :
    scalarAt a offset size kind = if a.definedIn offset (offset + size) then
      .ok (.ofCells (Section.slice a.cells offset (offset + size)) kind) else .ok .undef := by
  unfold scalarAt
  rw [hnone]
  cases a.definedIn offset (offset + size) <;> rfl

theorem read_of_checked_error {e : EvalError} (h : m.checked p size align = .error e) (kind : Kind) :
    m.readScalar p size kind align = .error e ∧ (size ≠ 0 → m.readBytes p size align = .error e) := by
  constructor
  · unfold readScalar
    rw [h]
    rfl
  · intro hsize
    unfold readBytes
    rw [if_neg hsize, h]
    rfl

section Reads

variable {size align : Int} {id : Nat} (htracks : m.Tracks s)
  (hchecked : m.checked p size align = .ok (id, offset, a))
include htracks hchecked

theorem Tracks.checked : a.Valid ∧ Follows a (s id) := by
  obtain ⟨-, hfind, -⟩ := checked_eq_ok hchecked
  have hmem := mem_of_lookup hfind
  exact ⟨htracks.regular.allocs _ hmem, htracks.rows _ hmem⟩

/-- Bytes of a pointer that is whole are read together or not at all. -/
theorem Tracks.read_of_holds (hholds : s.Holds id offset size) (kind : Kind) :
    m.readBytes p size align = .error .pointerAsBytes ∧
      (m.readScalar p size kind align = .error .pointerAsBytes ∨
        ∃ target, s.IsPointer id offset size target) := by
  obtain ⟨-, hrow⟩ := htracks.checked hchecked
  obtain ⟨k, hk, target, index, hpart⟩ := hholds
  have hfound : a.relocationsIn offset (offset + size) ≠ [] :=
    fun hnone => relocationsIn_eq_nil hrow hnone hk target index hpart
  rw [readScalar_eq kind hchecked, readBytes_eq (by omega) hchecked, if_neg hfound]
  refine ⟨rfl, ?_⟩
  rcases scalarAt_of_ne_nil hfound with herror | ⟨target, hlookup, hwidth, -⟩
  · exact .inl herror
  · exact .inr ⟨target, hwidth, fun k hk => part_of_lookup hrow hlookup hk⟩

theorem Tracks.readScalar_of_isPointer {target : Pointer}
    (hpointer : s.IsPointer id offset size target) (kind : Kind) :
    m.readScalar p size kind align = .ok (.ptr target) := by
  obtain ⟨ha, hrow⟩ := htracks.checked hchecked
  obtain ⟨rfl, hparts⟩ := hpointer
  have hpart : s id offset = .part target 0 := hparts 0 (by decide)
  rw [readScalar_eq kind hchecked]
  unfold scalarAt
  rw [relocationsIn_of_part hrow ha hpart, lookup_of_part hrow hpart]
  exact if_pos ⟨rfl, rfl⟩

/-- Bytes of a pointer that are read as data are remnants, and zero. -/
theorem Tracks.data_or_remnant (hsize : 0 ≤ size) (hcells : m.readBytes p size align = .ok cells)
    {k : Nat} (hk : (k : Int) < size) :
    s id (offset + k) = .data ∨ s id (offset + k) = .remnant ∧ cells[k]? = some (.known 0) := by
  obtain ⟨-, hrow⟩ := htracks.checked hchecked
  rw [readBytes_eq (by omega) hchecked] at hcells
  split_ifs at hcells with hnone hdefined
  cases hcells
  cases horigin : s id (offset + k) with
  | data => exact .inl rfl
  | part target index => exact absurd horigin (relocationsIn_eq_nil hrow hnone hk target index)
  | remnant =>
    refine .inr ⟨rfl, ?_⟩
    rw [Section.getElem?_slice hsize (checked_eq_ok hchecked).2.2 hk]
    exact hrow.remnant _ horigin

theorem Tracks.readScalar_cases (hsize : 0 ≤ size) {v : Scalar}
    (hv : m.readScalar p size kind align = .ok v) : v = .undef ∨
      (∃ target, v = .ptr target ∧ s.IsPointer id offset size target) ∨
      ∃ cells, m.readBytes p size align = .ok cells ∧ v = .ofCells cells kind := by
  obtain ⟨-, hrow⟩ := htracks.checked hchecked
  rw [readScalar_eq kind hchecked] at hv
  by_cases hnone : a.relocationsIn offset (offset + size) = []
  · rw [scalarAt_of_eq_nil hnone] at hv
    split_ifs at hv with hdefined
    · cases hv
      exact .inr (.inr ⟨_, readBytes_of_defined hsize hchecked hnone hdefined, rfl⟩)
    · cases hv
      exact .inl rfl
  · rcases scalarAt_of_ne_nil hnone with herror | ⟨target, hlookup, hwidth, hok⟩
    · rw [herror] at hv
      cases hv
    · rw [hok] at hv
      cases hv
      exact .inr (.inl ⟨target, rfl, hwidth, fun k hk => part_of_lookup hrow hlookup hk⟩)

end Reads

/-- Wherever a pointer is stored, reading gives the whole pointer or raises. Bytes that belonged to a
pointer and are read as data were left behind when the pointer was cut, and are zero: after any
operations, returned or raised, that ask for no negative size, and for every read. -/
theorem pointer_bytes_after (limit : Int) {ops : List Op} (hops : ∀ op ∈ ops, 0 ≤ op.size)
    (p : Pointer) {size : Int} (hsize : 0 ≤ size) (align : Int) (kind : Kind) :
    let m := (after limit ops).1
    let s := provenance limit ops
    (∀ e, m.checked p size align = .error e → m.readScalar p size kind align = .error e ∧
      (size ≠ 0 → m.readBytes p size align = .error e)) ∧
    ∀ id offset a, m.checked p size align = .ok (id, offset, a) →
      -- bytes of a pointer that is whole are read together or not at all
      (s.Holds id offset size → m.readBytes p size align = .error .pointerAsBytes ∧
        (m.readScalar p size kind align = .error .pointerAsBytes ∨
          ∃ target, s.IsPointer id offset size target)) ∧
      (∀ target, s.IsPointer id offset size target →
        m.readScalar p size kind align = .ok (.ptr target)) ∧
      -- bytes of a pointer that are read as data are remnants, and zero
      (∀ cells, m.readBytes p size align = .ok cells → ∀ k : Nat, (k : Int) < size →
        s id (offset + k) = .data ∨
          s id (offset + k) = .remnant ∧ cells[k]? = some (.known 0)) ∧
      (∀ v, m.readScalar p size kind align = .ok v → v = .undef ∨
        (∃ target, v = .ptr target ∧ s.IsPointer id offset size target) ∨
        ∃ cells, m.readBytes p size align = .ok cells ∧ v = .ofCells cells kind) := by
  intro m s
  have htracks : m.Tracks s := tracks_after limit hops
  refine ⟨fun e hchecked => read_of_checked_error hchecked kind, fun id offset a hchecked => ?_⟩
  refine ⟨fun hholds => ?_, fun target hpointer => ?_, fun cells hcells k hk => ?_, fun v hv => ?_⟩
  · exact htracks.read_of_holds hchecked hholds kind
  · exact htracks.readScalar_of_isPointer hchecked hpointer kind
  · exact htracks.data_or_remnant hchecked hsize hcells hk
  · exact htracks.readScalar_cases hchecked hsize hv

theorem eq_ok_of_toOption {ε : Type} {e : Except ε α} {x : α} (h : e.toOption = some x) :
    e = .ok x := by
  cases e with
  | error x => cases h
  | ok x => exact congrArg Except.ok (Option.some.inj h)

theorem exists_checked {id : Nat}
    (h : (m.checked p size align).toOption.map (fun x => (x.1, x.2.1)) = some (id, offset)) :
    ∃ a, m.checked p size align = .ok (id, offset, a) := by
  obtain ⟨x, hx, hplace⟩ := Option.map_eq_some_iff.1 h
  cases hplace
  exact ⟨x.2.2, eq_ok_of_toOption hx⟩

/-- A pointer is copied twice, and one of the copies is cut: the other one is read back, and what is
left of the one that was cut is read as zeros. -/
theorem pointer_bytes_after_sample :
    (∀ op ∈ sample, 0 ≤ op.size) ∧
    (after 64 sample).1.readScalar (.known 1 16) 8 .ptr 8 = .ok (.ptr (.known 1 4)) ∧
    (after 64 sample).1.readBytes (.known 1 16) 4 1 = .error .pointerAsBytes ∧
    provenance 64 sample 1 8 = .remnant ∧
    ∃ cells, (after 64 sample).1.readBytes (.known 1 8) 4 1 = .ok cells ∧
      cells[0]? = some (.known 0) := by
  have hsizes : ∀ op ∈ sample, 0 ≤ op.size := by decide
  have hremnant : provenance 64 sample 1 8 = .remnant := by decide +kernel
  refine ⟨hsizes, ?_, ?_, hremnant, ?_⟩
  · obtain ⟨a, ha⟩ : ∃ a, (after 64 sample).1.checked (.known 1 16) 8 8 = .ok (1, 16, a) :=
      exists_checked (by decide +kernel)
    have h := (pointer_bytes_after 64 hsizes (.known 1 16) (by decide) 8 .ptr).2 1 16 a ha
    exact h.2.1 _ ⟨rfl, by decide +kernel⟩
  · obtain ⟨a, ha⟩ : ∃ a, (after 64 sample).1.checked (.known 1 16) 4 1 = .ok (1, 16, a) :=
      exists_checked (by decide +kernel)
    have h := (pointer_bytes_after 64 hsizes (.known 1 16) (by decide) 1 .u64).2 1 16 a ha
    exact (h.1 ⟨0, by decide, .known 1 4, 0, by decide +kernel⟩).1
  · obtain ⟨a, ha⟩ : ∃ a, (after 64 sample).1.checked (.known 1 8) 4 1 = .ok (1, 8, a) :=
      exists_checked (by decide +kernel)
    have h := (pointer_bytes_after 64 hsizes (.known 1 8) (by decide) 1 .u64).2 1 8 a ha
    have hcells : (after 64 sample).1.readBytes (.known 1 8) 4 1 =
        .ok (replicate 4 (.known 0)) := eq_ok_of_toOption (by decide +kernel)
    refine ⟨_, hcells, ?_⟩
    rcases h.2.2.1 _ hcells 0 (by decide) with hdata | ⟨-, hzero⟩
    · rw [hremnant] at hdata
      cases hdata
    · exact hzero

end Memory
end SymExec

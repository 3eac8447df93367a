import SymExec.Proofs.Allocation

/-!
# Memory that is well-formed

The usage of a memory is what its allocations hold, and is within the limit (`Memory.Valid`). Every
operation keeps this, whether it returns or raises, and no allocation changes its size
(`Memory.Evolves`). Most operations change contents only: the allocations are the same ones before and
after (`Memory.Rewrites`). So it holds after any operations (`Memory.valid_after`).
-/
namespace SymExec

open Run List

namespace Memory

open Allocation

variable {α : Type} {offset : Nat} {region : Region} {p : Pointer} {cells : List Cell}
  {op : Op} {align limit : Int} {ops : List Op} {act : Run Memory α}
  {state : Memory × List Nat} {allocs : List (Nat × Allocation)}

def held (allocs : List (Nat × Allocation)) : Int := (allocs.map fun x => (x.2.size : Int)).sum

theorem held_cons (x : Nat × Allocation) (allocs : List (Nat × Allocation)) :
    held (x :: allocs) = x.2.size + held allocs := by
  simp [held]

theorem held_nonneg (allocs : List (Nat × Allocation)) : 0 ≤ held allocs := by
  refine sum_nonneg fun size hsize => ?_
  obtain ⟨x, -, rfl⟩ := mem_map.1 hsize
  exact Int.natCast_nonneg _

theorem Ordered.eq_of_number {m : Memory} (h : m.Ordered) {x y : Nat × Allocation}
    (hx : x ∈ m.allocs) (hy : y ∈ m.allocs) (hxy : x.1 = y.1) : x = y :=
  inj_on_of_nodup_map (pairwise_map.2 (h.increasing.imp Nat.ne_of_lt)) hx hy hxy

/-- A memory whose allocations are valid, and whose usage is what they hold. -/
structure Valid (m : Memory) : Prop where
  ordered : m.Ordered
  usage : m.usage = held m.allocs
  within : m.usage ≤ m.limit
  allocs : ∀ x ∈ m.allocs, x.2.Valid

/-- What an operation does to a valid memory: it stays valid, and an allocation that was there has
its size. -/
structure Evolves (m m' : Memory) : Prop where
  limit : m'.limit = m.limit
  next : m.next ≤ m'.next
  valid : m'.Valid
  sizes : ∀ x' ∈ m'.allocs, x'.1 < m.next → ∃ x ∈ m.allocs, x.1 = x'.1 ∧ x.2.size = x'.2.size

def Maintains (m m' : Memory) : Prop := m.Valid → m.Evolves m'

theorem maintains_composes : Composes Maintains where
  refl m h := ⟨rfl, Nat.le_refl _, h, fun x hx _ => ⟨x, hx, rfl, rfl⟩⟩
  trans {m m1 m2} h h' hm := by
    have h1 := h hm
    have h2 := h' h1.valid
    refine ⟨h2.limit.trans h1.limit, h1.next.trans h2.next, h2.valid, fun x2 hx2 hlt => ?_⟩
    obtain ⟨x1, hx1, hid1, hsize1⟩ := h2.sizes x2 hx2 (Nat.lt_of_lt_of_le hlt h1.next)
    obtain ⟨x, hx, hid, hsize⟩ := h1.sizes x1 hx1 (by rwa [hid1])
    exact ⟨x, hx, hid.trans hid1, hsize.trans hsize1⟩

variable {m m' : Memory} {id : Nat} {a : Allocation}

/-! ## Changes of contents -/

/-- The allocations stand in order and are valid. -/
structure Regular (m : Memory) : Prop where
  ordered : m.Ordered
  allocs : ∀ x ∈ m.allocs, x.2.Valid

theorem Valid.regular (h : m.Valid) : m.Regular := ⟨h.ordered, h.allocs⟩

/-- The numbers of the allocations, with what they are for and how large they are. -/
def outline (m : Memory) : List (Nat × Region × Nat) :=
  m.allocs.map fun x => (x.1, x.2.region, x.2.size)

/-- The outline with the alignments. -/
def shape (m : Memory) : List ((Nat × Region × Nat) × Nat) :=
  m.allocs.map fun x => ((x.1, x.2.region, x.2.size), x.2.align)

/-- The contents of allocations and the store may have changed, but nothing else. -/
structure Rewritten (m m' : Memory) : Prop where
  limit : m'.limit = m.limit
  usage : m'.usage = m.usage
  next : m'.next = m.next
  root : m'.root = m.root
  shape : m'.shape = m.shape
  regular : m'.Regular

theorem Rewritten.outline (h : m.Rewritten m') : m'.outline = m.outline := by
  have hshape := congrArg (List.map Prod.fst) h.shape
  rwa [Memory.shape, Memory.shape, map_map, map_map] at hshape

/-- Allocations that are valid get other contents. -/
def Rewrites (m m' : Memory) : Prop := m.Regular → m.Rewritten m'

theorem rewrites_composes : Composes Rewrites where
  refl m h := ⟨rfl, rfl, rfl, rfl, rfl, h⟩
  trans {m m1 m2} h h' hm := by
    have h1 := h hm
    have h2 := h' h1.regular
    exact ⟨h2.limit.trans h1.limit, h2.usage.trans h1.usage, h2.next.trans h1.next,
      h2.root.trans h1.root, h2.shape.trans h1.shape, h2.regular⟩

theorem held_eq (m : Memory) : held m.allocs = (m.outline.map fun x => (x.2.2 : Int)).sum := by
  rw [held, outline, map_map]
  rfl

theorem Rewritten.exists_mem (h : m.Rewritten m') {x' : Nat × Allocation} (hx' : x' ∈ m'.allocs) :
    ∃ x ∈ m.allocs, x.1 = x'.1 ∧ x.2.size = x'.2.size ∧ x.2.align = x'.2.align := by
  have hmem : ((x'.1, x'.2.region, x'.2.size), x'.2.align) ∈ m.shape :=
    h.shape ▸ mem_map.2 ⟨x', hx', rfl⟩
  obtain ⟨x, hx, hsame⟩ := mem_map.1 hmem
  simp only [Prod.mk.injEq] at hsame
  exact ⟨x, hx, hsame.1.1, hsame.1.2.2, hsame.2⟩

/-- A valid memory stays so when contents change. -/
theorem Rewritten.evolves (hm : m.Valid) (h : m.Rewritten m') : m.Evolves m' := by
  refine ⟨h.limit, h.next.ge, ⟨h.regular.ordered, ?_, ?_, h.regular.allocs⟩, fun x' hx' _ => ?_⟩
  · rw [h.usage, hm.usage, held_eq, held_eq, h.outline]
  · rw [h.usage, h.limit]
    exact hm.within
  · obtain ⟨x, hx, hnumber, hsize, -⟩ := h.exists_mem hx'
    exact ⟨x, hx, hnumber, hsize⟩

theorem maintains_of_rewrites (h : Keeps Rewrites act) :
    Keeps Maintains act := fun m hm => (h m hm.regular).evolves hm

theorem rewritten_update (hm : m.Regular) (hfind : m.find? id = some a)
    {f : Allocation → Allocation} (hkept : (f a).region = a.region ∧ (f a).align = a.align)
    (hf : a.Valid → (f a).Valid ∧ (f a).size = a.size) : m.Rewritten (m.update id f) := by
  obtain ⟨hvalid, hsize⟩ := hf (hm.allocs _ (mem_of_lookup hfind))
  have hsame := eq_of_lookup hm.ordered.increasing hfind
  have hchanged (x : Nat × Allocation) (hx : x ∈ m.allocs) :
      (if x.1 = id then f x.2 else x.2).region = x.2.region ∧
        (if x.1 = id then f x.2 else x.2).align = x.2.align ∧
        (if x.1 = id then f x.2 else x.2).size = x.2.size ∧
        (if x.1 = id then f x.2 else x.2).Valid := by
    split
    · rename_i hid
      rw [hsame x hx hid]
      exact ⟨hkept.1, hkept.2, hsize, hvalid⟩
    · exact ⟨rfl, rfl, rfl, hm.allocs x hx⟩
  refine ⟨rfl, rfl, rfl, rfl, ?_, ordered_update id f hm.ordered, fun y hy => ?_⟩
  · rw [shape, shape, allocs_update, map_map]
    refine map_congr_left fun x hx => ?_
    simp only [Function.comp_apply, hchanged x hx]
  · obtain ⟨x, hx, rfl⟩ := mem_update.1 hy
    exact (hchanged x hx).2.2.2

theorem rewritten_store (hm : m.Regular) (s : Store) : m.Rewritten { m with store := s } :=
  ⟨rfl, rfl, rfl, rfl, rfl, ⟨hm.ordered.increasing, hm.ordered.below⟩, hm.allocs⟩

/-! ## Allocations that come and go -/

/-- A number is passed over. -/
theorem regular_skip (hm : m.Regular) : { m with next := m.next + 1 }.Regular :=
  ⟨⟨hm.ordered.increasing, fun x hx => Nat.lt_succ_of_lt (hm.ordered.below x hx)⟩, hm.allocs⟩

theorem evolves_skip (hm : m.Valid) : m.Evolves { m with next := m.next + 1 } :=
  ⟨rfl, Nat.le_succ _, ⟨(regular_skip hm.regular).ordered, hm.usage, hm.within, hm.allocs⟩,
    fun x hx _ => ⟨x, hx, rfl, rfl⟩⟩

theorem regular_add (hm : m.Regular) (ha : a.Valid) (usage : Int) :
    { m with
      next := m.next + 1, usage := usage, allocs := m.allocs ++ [(m.next, a)] }.Regular := by
  obtain ⟨hincreasing, hbelow⟩ := ordered_add hm.ordered a
  refine ⟨⟨hincreasing, hbelow⟩, fun x hx => ?_⟩
  rcases mem_append.1 hx with hx | hx
  · exact hm.allocs x hx
  · rw [mem_singleton.1 hx]
    exact ha

theorem evolves_add (hm : m.Valid) (ha : a.Valid) (hfits : m.usage + a.size ≤ m.limit) :
    m.Evolves { m with
      next := m.next + 1, usage := m.usage + a.size, allocs := m.allocs ++ [(m.next, a)] } := by
  obtain ⟨hordered, hallocs⟩ := regular_add hm.regular ha (m.usage + a.size)
  refine ⟨rfl, Nat.le_succ _, ⟨hordered, ?_, hfits, hallocs⟩, fun x hx hlt => ?_⟩
  · simp [held, hm.usage]
  · rcases mem_append.1 hx with hx | hx
    · exact ⟨x, hx, rfl, rfl⟩
    · rw [mem_singleton.1 hx] at hlt
      exact absurd hlt (Nat.lt_irrefl _)

theorem held_filter (hincreasing : allocs.Pairwise (·.1 < ·.1)) (h : allocs.lookup id = some a) :
    held (allocs.filter fun (k, _) => k != id) = held allocs - a.size := by
  induction allocs with
  | nil => cases h
  | cons x allocs ih =>
    rw [pairwise_cons] at hincreasing
    rw [lookup_cons] at h
    by_cases hid : id = x.1
    · subst hid
      have hkept : allocs.filter (fun (k, _) => k != x.1) = allocs := by
        rw [filter_eq_self]
        intro y hy
        have hlt := hincreasing.1 y hy
        exact bne_iff_ne.2 (Nat.ne_of_gt hlt)
      rw [beq_self_eq_true] at h
      cases h
      rw [filter_cons_of_neg (by simp), hkept, held_cons]
      omega
    · rw [beq_eq_false_iff_ne.2 hid] at h
      rw [filter_cons_of_pos (by simpa using Ne.symm hid), held_cons, held_cons,
        ih hincreasing.2 h]
      omega

theorem regular_free (hm : m.Regular) (id : Nat) (a : Allocation) : (m.free id a).Regular :=
  ⟨⟨hm.ordered.increasing.filter _, fun x hx => hm.ordered.below x (mem_of_mem_filter hx)⟩,
    fun x hx => hm.allocs x (mem_of_mem_filter hx)⟩

theorem evolves_free (hm : m.Valid) (hfind : m.find? id = some a) : m.Evolves (m.free id a) := by
  obtain ⟨hordered, hallocs⟩ := regular_free hm.regular id a
  have hfilter := held_filter hm.ordered.increasing hfind
  refine ⟨rfl, Nat.le_refl _, ⟨hordered, ?_, ?_, hallocs⟩,
    fun x hx _ => ⟨x, mem_of_mem_filter hx, rfl, rfl⟩⟩
  · exact (congrArg (· - (a.size : Int)) hm.usage).trans hfilter.symm
  · have := hm.within
    simp only [free]
    omega

/-! ## Operations -/

/-- The allocation of undefined bytes that is made. -/
def fresh (size align : Int) (region : Region) : Allocation :=
  ⟨replicate size.toNat (.known 0), replicate size.toNat false, align.toNat, region, [], []⟩

theorem valid_fresh (size align : Int) (region : Region) : (fresh size align region).Valid := by
  constructor <;> simp [fresh]

theorem size_fresh {size : Int} (hsize : 0 ≤ size) :
    ((fresh size align region).size : Int) = size := by
  simp only [fresh, Allocation.size, length_replicate]
  omega

theorem maintains_allocate {size : Int} (hsize : 0 ≤ size) (align : Int) (region : Region) :
    Keeps Maintains (allocate size align region) := by
  intro m hm
  unfold final
  rw [allocate_eq, failReporting_apply]
  split_ifs with halign hfree hmax
  · exact maintains_composes.refl m hm
  · exact maintains_composes.refl m hm
  · exact maintains_composes.refl m hm
  · exact evolves_skip hm
  · have hadd := evolves_add hm (valid_fresh size align region) (by rw [size_fresh hsize]; omega)
    rwa [size_fresh hsize] at hadd

theorem maintains_deallocate (p : Pointer) (region : Option Region) :
    Keeps Maintains (deallocate p region) := by
  intro m hm
  match p with
  | .known id 0 =>
    have hsame := maintains_composes.refl m hm
    have hfree (a : Allocation) (hfind : m.find? id = some a) := evolves_free hm hfind
    unfold final
    rw [deallocate_eq]
    grind
  | .known id (n + 1) => exact maintains_composes.refl m hm
  | .symbolic id o => exact maintains_composes.refl m hm

theorem rewrites_checked (p : Pointer) (size align : Int) (g : Nat → Allocation → Allocation)
    (hkept : ∀ offset a, (g offset a).region = a.region ∧ (g offset a).align = a.align)
    (hg : ∀ (offset : Nat) (a : Allocation), a.Valid → (offset : Int) + size ≤ a.size →
      (g offset a).Valid ∧ (g offset a).size = a.size) :
    Keeps Rewrites (do
      let (id, offset, _) ← (← getThe Memory).checked p size align
      modify (update id (g offset))) := by
  intro m hm
  refine rewrites_composes.liftBind_final (e := EvalError.lift (m.checked p size align)) ?_ hm
  rintro ⟨id, offset, a⟩ hchecked hm
  obtain ⟨-, hfind, hbounds⟩ := checked_eq_ok (lift_eq_ok.1 hchecked)
  exact rewritten_update hm hfind (hkept offset a) fun ha => hg offset a ha hbounds

theorem valid_pack {size : Int} (ha : a.Valid) (hsize : 0 ≤ size)
    (hbounds : (offset : Int) + size ≤ a.size) :
    { a with packed := a.packed ++ [(offset, size)] }.Valid := by
  refine ⟨ha.marked, ha.zeros, ha.apart, fun q hq => ?_⟩
  rcases mem_append.1 hq with hq | hq
  · exact ha.packed q hq
  · rw [mem_singleton.1 hq]
    exact ⟨hsize, hbounds⟩

theorem rewrites_markPacked (p : Pointer) {size : Int} (hsize : 0 ≤ size) :
    Keeps Rewrites (markPacked p size) :=
  rewrites_checked p size 1 (fun offset a => { a with packed := a.packed ++ [(offset, size)] })
    (fun _ _ => ⟨rfl, rfl⟩) fun _ _ ha hbounds => ⟨valid_pack ha hsize hbounds, rfl⟩

theorem valid_write (ha : a.Valid) (hbounds : offset + cells.length ≤ a.size) :
    (a.write offset cells).Valid ∧ (a.write offset cells).size = a.size := by
  rw [write_eq_overwrite]
  exact ⟨ha.overwrite (by simp) hbounds, size_overwrite hbounds⟩

theorem rewrites_writeBytes (p : Pointer) (cells : List Cell) (align : Int) :
    Keeps Rewrites (writeBytes p cells align) := by
  unfold writeBytes
  split
  · exact rewrites_composes.pure ()
  · refine rewrites_checked p cells.length align (fun offset a => a.write offset cells)
      (fun _ _ => ⟨rfl, rfl⟩) fun offset a ha hbounds => valid_write ha (by omega)

theorem rewrites_writeRepeat (p : Pointer) (cell : Cell) (count align : Int) :
    Keeps Rewrites (writeRepeat p cell count align) := by
  unfold writeRepeat
  refine rewrites_composes.guard (rewrites_composes.throw _) ?_
  split
  · exact rewrites_composes.pure ()
  · refine rewrites_checked p count align (fun offset a => a.write offset (replicate count.toNat cell))
      (fun _ _ => ⟨rfl, rfl⟩) fun offset a ha hbounds => valid_write ha ?_
    rw [length_replicate]
    omega

theorem rewrites_markDefinedness (p : Pointer) {size : Int} (hsize : 0 ≤ size) (defined : Bool) :
    Keeps Rewrites (markDefinedness p size defined) := by
  unfold markDefinedness
  split
  · exact rewrites_composes.pure ()
  · refine rewrites_checked p size 1 (fun offset a => a.mark offset size defined)
      (fun _ a => ?_) fun offset a ha hbounds => ha.mark hsize hbounds defined
    cases defined <;> exact ⟨rfl, rfl⟩

theorem rewrites_onStore (act : Run Store α) : Keeps Rewrites (onStore act) := by
  intro m hm
  unfold final onStore
  cases act m.store <;> exact rewritten_store hm _

theorem rewrites_makeSymbolic (p : Pointer) (size : Int) : Keeps Rewrites (makeSymbolic p size) :=
  rewrites_composes.bind (rewrites_onStore _) fun cells => rewrites_writeBytes p cells 1

theorem rewrites_copyBytes (source dest : Pointer) {size : Int} (hsize : 0 ≤ size) (align : Int) :
    Keeps Rewrites (copyBytes source dest size align) := by
  unfold copyBytes
  split
  · exact rewrites_composes.pure ()
  · intro m hm
    refine rewrites_composes.liftBind_final (e := EvalError.lift (m.checked source size align)) ?_ hm
    rintro ⟨_, start, a⟩ hsource
    refine rewrites_composes.liftBind_final (e := EvalError.lift (m.checked dest size align)) ?_
    rintro ⟨id, offset, b⟩ hdest hm
    obtain ⟨-, hfrom, hstart⟩ := checked_eq_ok (lift_eq_ok.1 hsource)
    obtain ⟨-, hto, hoffset⟩ := checked_eq_ok (lift_eq_ok.1 hdest)
    have ha := hm.allocs _ (mem_of_lookup hfrom)
    refine rewritten_update hm hto ?_ fun hb => valid_received ha hb hsize hstart hoffset
    exact Allocation.kept_foldl _ (fun o => offset + (o - start)) _

theorem update_update (f g : Allocation → Allocation) :
    (m.update id f).update id g = m.update id (g ∘ f) := by
  unfold update
  simp only [map_map, Memory.mk.injEq, true_and, and_true]
  refine map_congr_left fun x _ => ?_
  by_cases hid : x.1 = id <;> simp [hid]

theorem valid_relocate_write (ha : a.Valid) (hbounds : offset + pointerSize ≤ a.size) (target : Pointer) :
    let b := (a.write offset (replicate pointerSize (.known 0))).relocate offset target
    b.Valid ∧ b.size = a.size := by
  have hlength : (replicate pointerSize (Cell.known 0)).length = pointerSize :=
    length_replicate
  obtain ⟨hvalid, hsize⟩ := valid_write ha (show offset + (replicate pointerSize
    (Cell.known 0)).length ≤ a.size by rwa [hlength])
  refine ⟨hvalid.relocate ?_ (fun r hr => ?_) target, hsize⟩
  · rw [write_eq_overwrite]
    refine zerosAt_overwrite (o := 0) ha.marked (by simp) (by rwa [hlength]) fun k hk => ?_
    simp [hk]
  · rw [write_eq_overwrite] at hr
    exact apart_overwrite hr (Nat.le_refl _) (by rw [hlength])

theorem writeBytes_eq (hcells : cells ≠ [])
    (h : m.checked p cells.length align = .ok (id, offset, a)) :
    writeBytes p cells align m = .ok () (m.update id fun a => a.write offset cells) := by
  have hempty : cells.isEmpty = false := by simpa using hcells
  unfold writeBytes
  simp only [hempty, Bool.false_eq_true, if_false]
  rw [bind_of_ok (getThe_apply m), h]
  rfl

/-- A pointer is written as zeros, and then stored there. -/
theorem writeScalar_ptr_eq (h : m.checked p pointerSize align = .ok (id, offset, a))
    (target : Pointer) :
    writeScalar p (.ptr target) pointerSize align m = .ok () (m.update id fun a =>
      (a.write offset (replicate pointerSize (.known 0))).relocate offset target) := by
  have hwrite : writeBytes p (replicate pointerSize (.known 0)) 1 m
      = .ok () (m.update id fun a => a.write offset (replicate pointerSize (.known 0))) := by
    have hone := checked_one h
    rw [← length_replicate (n := pointerSize) (a := Cell.known 0)] at hone
    exact writeBytes_eq (by simp [pointerSize]) hone
  unfold writeScalar
  rw [bind_of_ok (getThe_apply m), h]
  refine (bind_of_ok hwrite).trans ?_
  rw [modify_apply, update_update]
  rfl

theorem rewrites_writePointer (p target : Pointer) (align : Int) :
    Keeps Rewrites (writeScalar p (.ptr target) pointerSize align) := by
  intro m hm
  cases hchecked : m.checked p pointerSize align with
  | ok x =>
    obtain ⟨-, hfind, hbounds⟩ := checked_eq_ok hchecked
    rw [final_of_ok (writeScalar_ptr_eq hchecked target)]
    exact rewritten_update hm hfind ⟨rfl, rfl⟩ fun ha => valid_relocate_write ha (by omega) target
  | error e =>
    refine rewrites_composes.liftBind_final (e := EvalError.lift (m.checked p pointerSize align)) ?_ hm
    intro x hx
    rw [hchecked] at hx
    cases hx

theorem rewrites_writeScalar (p : Pointer) (v : Scalar) {size : Int} (hsize : 0 ≤ size) (align : Int) :
    Keeps Rewrites (writeScalar p v size align) := by
  by_cases hpointer : size = pointerSize ∧ ∃ target, v = .ptr target
  · obtain ⟨rfl, target, rfl⟩ := hpointer
    exact rewrites_writePointer p target align
  intro m hm
  refine rewrites_composes.liftBind_final (e := EvalError.lift (m.checked p size align)) ?_ hm
  rintro ⟨id, offset, a⟩ hchecked
  cases v with
  | undef => exact rewrites_markDefinedness p hsize false m
  | cells list =>
    refine rewrites_composes.guard (rewrites_composes.fail _) ?_ m
    exact rewrites_writeBytes p list 1
  | bits pattern =>
    refine rewrites_composes.guard (rewrites_composes.throw _) ?_ m
    exact rewrites_writeBytes p _ 1
  | ptr target =>
    have hwidth : size ≠ pointerSize := fun hwidth => hpointer ⟨hwidth, target, rfl⟩
    simp only [ne_eq, hwidth, not_false_eq_true, if_true]
    exact rewrites_composes.refl m

/-- Contents that are as long as an allocation without stored pointers. -/
theorem rewritten_fillWith (hm : m.Regular) (hfind : m.find? id = some a) (hempty : a.relocations = [])
    (hlength : cells.length = a.size) : m.Rewritten ((fillWith id cells).final m) := by
  refine rewritten_update hm hfind
    (f := fun a => { a with cells := cells, defined := replicate cells.length true })
    ⟨rfl, rfl⟩ fun ha => ⟨⟨by simp, ?_, ?_, fun q hq => ?_⟩, hlength⟩
  · simp [hempty]
  · simp [hempty]
  · rw [Allocation.size, hlength]
    exact ha.packed q hq

theorem lookup_add (h : ∀ x ∈ allocs, x.1 < id) (a : Allocation) :
    (allocs ++ [(id, a)]).lookup id = some a := by
  induction allocs with
  | nil => simp
  | cons x allocs ih =>
    have hne : id ≠ x.1 := Nat.ne_of_gt (h x (by simp))
    rw [cons_append, lookup_cons, beq_eq_false_iff_ne.2 hne]
    exact ih fun y hy => h y (by simp [hy])

/-- A new allocation has the next number and no contents yet. -/
theorem allocate_eq_ok {size : Int} (h : allocate size align region m = .ok p m') :
    p = .known m.next 0 ∧ m' = { m with
      next := m.next + 1
      usage := m.usage + size
      allocs := m.allocs ++ [(m.next, fresh size align region)] } := by
  rw [allocate_eq, failReporting_apply] at h
  split_ifs at h
  cases h
  exact ⟨rfl, rfl⟩

theorem room_of_allocate {size : Int} (h : allocate size align region m = .ok p m') :
    m.usage + size ≤ m.limit := by
  rw [allocate_eq, failReporting_apply] at h
  split_ifs at h with halign hfree
  omega

/-- A new allocation that is given contents. -/
theorem rewritten_filled {size : Int} {m1 : Memory} (hm : m.Regular)
    (h : allocate size align region m = .ok p m1) (s : Store) (hlength : cells.length = size.toNat) :
    { m1 with store := s }.Rewritten ((fillWith p.alloc cells).final { m1 with store := s }) := by
  obtain ⟨rfl, rfl⟩ := allocate_eq_ok h
  have hm1 := regular_add hm (valid_fresh size align region) (m.usage + size)
  refine rewritten_fillWith (rewritten_store hm1 s).regular
    (lookup_add hm.ordered.below _) rfl (hlength.trans ?_)
  simp [fresh, Allocation.size]

theorem maintains_allocateAbstract {size : Int} (hsize : 0 ≤ size) (align : Int) :
    Keeps Maintains (allocateAbstract size align) := by
  intro m hm
  refine maintains_composes.bind_final (maintains_allocate hsize align .abstract m)
    (fun p m1 h hm1 => ?_) hm
  refine maintains_composes.bind_final
    (maintains_of_rewrites (rewrites_onStore (Store.fresh size)) m1) ?_ hm1
  rintro cells m2 hfresh hm2
  cases hfresh
  refine maintains_composes.bind_final (fun hm2 => ?_) (fun _ _ _ => maintains_composes.refl _) hm2
  exact (rewritten_filled hm.regular h _ (by simp [Store.cellsFrom])).evolves hm2

theorem maintains_allocateStatic (data : List (BitVec 8)) : Keeps Maintains (allocateStatic data) := by
  intro m hm
  have hsize : (0 : Int) ≤ data.length := Int.natCast_nonneg _
  refine maintains_composes.bind_final (maintains_allocate hsize 1 .static m)
    (fun p m1 h hm1 => ?_) hm
  refine maintains_composes.bind_final (fun hm1 => ?_) (fun _ _ _ => maintains_composes.refl _) hm1
  exact (rewritten_filled hm.regular h m1.store (by simp)).evolves hm1

/-- An edit makes a static allocation or changes contents. -/
theorem Edit.keeps {R : Memory → Memory → Prop} (h : Edit True act)
    (hstatic : ∀ data, Keeps R (Memory.allocateStatic data)) (hR : ∀ m m', Rewrites m m' → R m m') :
    Keeps R act := by
  cases h with
  | allocateStatic data => exact hstatic data
  | markPacked p h => exact (rewrites_markPacked p (h trivial)).mono hR
  | writeRepeat p cell count align => exact (rewrites_writeRepeat p cell count align).mono hR
  | markDefinedness p defined h => exact (rewrites_markDefinedness p (h trivial) defined).mono hR
  | copyBytes source dest align h => exact (rewrites_copyBytes source dest (h trivial) align).mono hR
  | writeScalar p v align h => exact (rewrites_writeScalar p v (h trivial) align).mono hR

/-! ## Histories -/

/-- An operation that changes a memory. -/
inductive Op where
  | allocate (size align : Int) (region : Region)
  | allocateAbstract (size align : Int)
  | allocateStatic (data : List (BitVec 8))
  | deallocate (p : Pointer) (region : Option Region)
  | markPacked (p : Pointer) (size : Int)
  | writeBytes (p : Pointer) (cells : List Cell) (align : Int)
  | writeRepeat (p : Pointer) (cell : Cell) (count align : Int)
  | markDefinedness (p : Pointer) (size : Int) (defined : Bool)
  | makeSymbolic (p : Pointer) (size : Int)
  | copyBytes (source dest : Pointer) (size align : Int)
  | writeScalar (p : Pointer) (v : Scalar) (size align : Int)

namespace Op

def size : Op → Int
  | allocate size _ _ => size
  | allocateAbstract size _ => size
  | allocateStatic data => data.length
  | deallocate _ _ => 0
  | markPacked _ size => size
  | writeBytes _ cells _ => cells.length
  | writeRepeat _ _ count _ => count
  | markDefinedness _ size _ => size
  | makeSymbolic _ size => size
  | copyBytes _ _ size _ => size
  | writeScalar _ _ size _ => size

/-- Carries out an operation; the result is the number that is handed out, if it allocates. -/
def run : Op → Run Memory (Option Nat)
  | allocate size align region => return some (← Memory.allocate size align region).alloc
  | allocateAbstract size align => return some (← Memory.allocateAbstract size align).alloc
  | allocateStatic data => return some (← Memory.allocateStatic data).alloc
  | deallocate p region => do Memory.deallocate p region; return none
  | markPacked p size => do Memory.markPacked p size; return none
  | writeBytes p cells align => do Memory.writeBytes p cells align; return none
  | writeRepeat p cell count align => do Memory.writeRepeat p cell count align; return none
  | markDefinedness p size defined => do Memory.markDefinedness p size defined; return none
  | makeSymbolic p size => do Memory.makeSymbolic p size; return none
  | copyBytes source dest size align => do Memory.copyBytes source dest size align; return none
  | writeScalar p v size align => do Memory.writeScalar p v size align; return none

/-- The memory after an operation that returned or raised, and the numbers handed out so far. -/
def apply (op : Op) (state : Memory × List Nat) : Memory × List Nat :=
  match op.run state.1 with
  | .ok id m => (m, state.2 ++ id.toList)
  | .error _ m => (m, state.2)

theorem maintains_run (hop : 0 ≤ op.size) : Keeps Maintains op.run := by
  have hreturn {α β : Type} {act : Run Memory α} {f : α → β} (h : Keeps Maintains act) :
      Keeps Maintains (do return f (← act)) :=
    maintains_composes.bind h fun _ => maintains_composes.pure _
  have hrewrites {α β : Type} {act : Run Memory α} {f : α → β} (h : Keeps Rewrites act) :
      Keeps Maintains (do return f (← act)) := hreturn (maintains_of_rewrites h)
  cases op with
  | allocate size align region => exact hreturn (maintains_allocate hop align region)
  | allocateAbstract size align => exact hreturn (maintains_allocateAbstract hop align)
  | allocateStatic data => exact hreturn (maintains_allocateStatic data)
  | deallocate p region => exact hreturn (maintains_deallocate p region)
  | markPacked p size => exact hrewrites (rewrites_markPacked p hop)
  | writeBytes p cells align => exact hrewrites (rewrites_writeBytes p cells align)
  | writeRepeat p cell count align => exact hrewrites (rewrites_writeRepeat p cell count align)
  | markDefinedness p size defined => exact hrewrites (rewrites_markDefinedness p hop defined)
  | makeSymbolic p size => exact hrewrites (rewrites_makeSymbolic p size)
  | copyBytes source dest size align => exact hrewrites (rewrites_copyBytes source dest hop align)
  | writeScalar p v size align => exact hrewrites (rewrites_writeScalar p v hop align)

theorem run_eq_ok {n : Nat} (h : op.run m = .ok (some n) m') : n = m.next ∧ m.next < m'.next := by
  cases op with
  | allocate size align region =>
    obtain ⟨p, m1, hp, ⟨⟩⟩ := bind_eq_ok.1 h
    obtain ⟨rfl, rfl⟩ := allocate_eq_ok hp
    exact ⟨rfl, Nat.lt_succ_self _⟩
  | allocateAbstract size align | allocateStatic data =>
    obtain ⟨p, m1, hp, ⟨⟩⟩ := bind_eq_ok.1 h
    obtain ⟨q, m2, hq, ⟨⟩⟩ := bind_eq_ok.1 hp
    obtain ⟨rfl, rfl⟩ := allocate_eq_ok hq
    exact ⟨rfl, Nat.lt_succ_self _⟩
  | _ =>
    obtain ⟨-, -, -, ⟨⟩⟩ := bind_eq_ok.1 h

theorem fst_apply (op : Op) (state : Memory × List Nat) :
    (op.apply state).1 = op.run.final state.1 := by
  unfold apply final
  cases op.run state.1 <;> rfl

/-- An operation hands out the next number or none. -/
theorem snd_apply (op : Op) (state : Memory × List Nat) :
    (op.apply state).2 = state.2 ∨ (op.apply state).2 = state.2 ++ [state.1.next] ∧
      state.1.next < (op.apply state).1.next := by
  unfold apply
  cases h : op.run state.1 with
  | error failure m => exact .inl rfl
  | ok number m =>
    cases number with
    | none => exact .inl (append_nil _)
    | some n =>
      obtain ⟨rfl, hlt⟩ := run_eq_ok h
      exact .inr ⟨rfl, hlt⟩

end Op

/-- A valid memory, and the numbers it handed out, none of them twice. -/
structure History (state : Memory × List Nat) : Prop where
  valid : state.1.Valid
  below : ∀ n ∈ state.2, n < state.1.next
  nodup : state.2.Nodup

theorem History.apply (h : History state) (hop : 0 ≤ op.size) :
    History (op.apply state) ∧ state.1.Evolves (op.apply state).1 := by
  have hevolves := Op.maintains_run hop state.1 h.valid
  rw [← Op.fst_apply] at hevolves
  have hbelow (n : Nat) (hn : n ∈ state.2) : n < (op.apply state).1.next :=
    Nat.lt_of_lt_of_le (h.below n hn) hevolves.next
  refine ⟨⟨hevolves.valid, ?_, ?_⟩, hevolves⟩
  · obtain hnone | ⟨hsome, hlt⟩ := op.snd_apply state
    · rwa [hnone]
    · rw [hsome, forall_mem_append]
      exact ⟨hbelow, by simpa using hlt⟩
  · obtain hnone | ⟨hsome, -⟩ := op.snd_apply state
    · rw [hnone]
      exact h.nodup
    · rw [hsome]
      refine nodup_append.2 ⟨h.nodup, nodup_singleton _, fun n hn n' hn' => ?_⟩
      rw [mem_singleton.1 hn']
      exact Nat.ne_of_lt (h.below n hn)

theorem History.foldl (hops : ∀ op ∈ ops, 0 ≤ op.size) (h : History state) :
    History (ops.foldl (fun state op => op.apply state) state) ∧
      state.1.Evolves (ops.foldl (fun state op => op.apply state) state).1 := by
  induction ops generalizing state with
  | nil => exact ⟨h, maintains_composes.refl _ h.valid⟩
  | cons op ops ih =>
    obtain ⟨hfirst, hevolves⟩ := h.apply (hops op (by simp))
    obtain ⟨hrest, hevolves'⟩ := ih (fun op hop => hops op (by simp [hop])) hfirst
    exact ⟨hrest, maintains_composes.trans (fun _ => hevolves) (fun _ => hevolves') h.valid⟩

/-- A fresh memory after operations that returned or raised, and the numbers it handed out. -/
def after (limit : Int) (ops : List Op) : Memory × List Nat :=
  ops.foldl (fun state op => op.apply state) ({ limit := limit }, [])

theorem history_after (hlimit : 0 ≤ limit) (hops : ∀ op ∈ ops, 0 ≤ op.size) :
    History (after limit ops) ∧ Evolves { limit := limit } (after limit ops).1 := by
  have hfresh : Memory.Valid { limit := limit } := ⟨⟨.nil, by simp⟩, rfl, hlimit, by simp⟩
  exact History.foldl hops ⟨hfresh, by simp, .nil⟩

/-- What later operations do to the memory after earlier ones. -/
theorem evolves_after (hlimit : 0 ≤ limit) {rest : List Op} (hops : ∀ op ∈ ops, 0 ≤ op.size)
    (hrest : ∀ op ∈ rest, 0 ≤ op.size) :
    (after limit ops).1.Evolves (after limit (ops ++ rest)).1 := by
  unfold after
  rw [foldl_append]
  exact (History.foldl hrest (history_after hlimit hops).1).2

/-- After any operations, returned or raised, that ask for no negative size: usage is what the live
allocations hold, and within the limit. Numbers are below the next one and are handed out once. In an
allocation, every byte is marked as defined or not, stored pointers lie inside, apart from each other
and on zeros that are defined, and exemptions from alignment lie inside. Later operations never
change the size of an allocation. -/
theorem valid_after {limit : Int} (hlimit : 0 ≤ limit) {ops : List Op}
    (hops : ∀ op ∈ ops, 0 ≤ op.size) :
    ((after limit ops).1.usage = ((after limit ops).1.allocs.map fun x => (x.2.size : Int)).sum ∧
      0 ≤ (after limit ops).1.usage ∧ (after limit ops).1.usage ≤ limit) ∧
    ((∀ n ∈ (after limit ops).2, n < (after limit ops).1.next) ∧ (after limit ops).2.Nodup ∧
      (after limit ops).1.allocs.Pairwise fun x y => x.1 ≠ y.1) ∧
    (∀ x ∈ (after limit ops).1.allocs,
      x.2.defined.length = x.2.cells.length ∧
      (∀ r ∈ x.2.relocations, r.1 + pointerSize ≤ x.2.size ∧ x.2.ZerosAt r.1) ∧
      (x.2.relocations.Pairwise fun r r' => Apart r.1 r'.1) ∧
      ∀ q ∈ x.2.packed, 0 ≤ q.2 ∧ (q.1 : Int) + q.2 ≤ x.2.size) ∧
    ∀ rest : List Op, (∀ op ∈ rest, 0 ≤ op.size) →
      ∀ x ∈ (after limit ops).1.allocs, ∀ x' ∈ (after limit (ops ++ rest)).1.allocs,
        x'.1 = x.1 → x'.2.size = x.2.size := by
  obtain ⟨⟨hvalid, hbelow, hnodup⟩, hevolves⟩ := history_after hlimit hops
  refine ⟨⟨hvalid.usage, ?_, ?_⟩, ⟨hbelow, hnodup, ?_⟩, fun x hx => ?_, ?_⟩
  · rw [hvalid.usage]
    exact held_nonneg _
  · exact hvalid.within.trans_eq hevolves.limit
  · exact hvalid.ordered.increasing.imp Nat.ne_of_lt
  · have ha := hvalid.allocs x hx
    exact ⟨ha.marked, fun r hr => ⟨(ha.zeros r hr).le, ha.zeros r hr⟩, ha.apart, ha.packed⟩
  · intro rest hrest x hx x' hx' hsame
    have hlt : x'.1 < (after limit ops).1.next := hsame ▸ hvalid.ordered.below x hx
    obtain ⟨y, hy, hnumber, hsize⟩ := (evolves_after hlimit hops hrest).sizes x' hx' hlt
    rw [← hsize, hvalid.ordered.eq_of_number hy hx (hnumber.trans hsame)]

/-- Stores a pointer, copies it, and overwrites half of the copy. -/
def sample : List Op :=
  [.allocate 24 8 .heap, .writeScalar (.known 1 0) (.ptr (.known 1 4)) 8 8,
    .copyBytes (.known 1 0) (.known 1 8) 8 8, .copyBytes (.known 1 0) (.known 1 16) 8 8,
    .writeRepeat (.known 1 12) (.known 7) 4 1, .allocateStatic [1, 2], .allocate 999 8 .heap]

theorem valid_after_sample :
    (∀ op ∈ sample, 0 ≤ op.size) ∧ (after 64 sample).2 = [1, 2] ∧
    ((after 64 sample).1.allocs.map fun x => x.2.relocations.map (·.1)) = [[0, 16], []] ∧
    (after 64 sample).1.usage ≤ 64 ∧
    ∀ x ∈ (after 64 sample).1.allocs, ∀ r ∈ x.2.relocations, x.2.ZerosAt r.1 := by
  have hsizes : ∀ op ∈ sample, 0 ≤ op.size := by decide
  have h := valid_after (show (0 : Int) ≤ 64 by decide) hsizes
  exact ⟨hsizes, by decide +kernel, by decide +kernel, h.1.2.2,
    fun x hx r hr => ((h.2.2.1 x hx).2.1 r hr).2⟩

end Memory
end SymExec

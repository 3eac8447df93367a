import SymExec.Proofs.Derive
import SymExec.Proofs.Effects

/-!
# How a machine grows

Operations on memory leave the store alone (`Memory.sameStore_respected`). So what a step does to a machine
besides its memory and its call stack is what it does to the store (`Machine.Steady`): it defines
new bytes, makes new inputs or assumes a condition. What every operation on memory keeps, no step
breaks (`Memory.Invariant`, `Machine.invariant_closed`).
-/
namespace SymExec

open Run List

variable {α : Type} {P : Prop} {act : Run Memory α}

theorem Store.keeps_derives {act : Run Store α} (h : Store.Operation act) :
    Keeps Store.Derives act := by
  cases h with
  | cast v source dest => exact Cast.keeps_cast v source dest
  | _ => grind

/-! ## Memory -/

namespace Allocation

variable (a : Allocation) (offset : Nat)

/-- Contents change; where an allocation belongs does not. -/
@[grind =] theorem region_write (cells : List Cell) :
    (a.write offset cells).region = a.region := rfl

@[grind =] theorem region_mark (size : Int) (defined : Bool) :
    (a.mark offset size defined).region = a.region := by
  cases defined <;> rfl

@[grind =] theorem region_relocate (p : Pointer) :
    (a.relocate offset p).region = a.region := rfl

@[grind =] theorem align_write (cells : List Cell) :
    (a.write offset cells).align = a.align := rfl

@[grind =] theorem align_mark (size : Int) (defined : Bool) :
    (a.mark offset size defined).align = a.align := by
  cases defined <;> rfl

@[grind =] theorem align_relocate (p : Pointer) :
    (a.relocate offset p).align = a.align := rfl

/-- Storing pointers changes nothing else. -/
theorem foldl_relocate_eq (moved : List (Nat × Pointer)) (place : Nat → Nat) (a : Allocation) :
    moved.foldl (fun b (o, target) => b.relocate (place o) target) a = { a with
      relocations := (moved.foldl (fun b (o, target) => b.relocate (place o) target) a).relocations } := by
  induction moved generalizing a with
  | nil => rfl
  | cons x moved ih => exact ih _

theorem kept_foldl (moved : List (Nat × Pointer)) (place : Nat → Nat) (a : Allocation) :
    (moved.foldl (fun b (o, target) => b.relocate (place o) target) a).region = a.region ∧
      (moved.foldl (fun b (o, target) => b.relocate (place o) target) a).align = a.align := by
  rw [foldl_relocate_eq]
  exact ⟨rfl, rfl⟩

end Allocation

namespace Memory

variable {m : Memory}
variable (size align : Int) (region : Region) (id : Nat) (p : Pointer)

/-- A relation that allocation and every change of an allocation respect. -/
structure Respected (R : Memory → Memory → Prop) : Prop extends Composes R where
  allocate (size align : Int) (region : Region) : Keeps R (allocate size align region)
  deallocate (p : Pointer) (region : Option Region) : Keeps R (deallocate p region)
  update (id : Nat) (f : Allocation → Allocation)
    (hf : ∀ a, (f a).region = a.region ∧ (f a).align = a.align) : Keeps R (modify (update id f))

namespace Respected

variable {R : Memory → Memory → Prop} (hR : Respected R)
include hR

attribute [grind →] Respected.toComposes
attribute [grind ←] Respected.allocate Respected.deallocate Respected.update

@[grind ←] theorem getThe : Keeps R (getThe Memory : Run Memory Memory) := fun m => hR.refl m

@[grind ←] theorem writeBytes (p : Pointer) (cells : List Cell) (align : Int) :
    Keeps R (writeBytes p cells align) := by
  unfold Memory.writeBytes
  grind

@[grind ←] theorem markDefinedness (p : Pointer) (size : Int) (defined : Bool) :
    Keeps R (markDefinedness p size defined) := by
  unfold Memory.markDefinedness
  grind

theorem edit (h : Edit P act) : Keeps R act := by
  cases h with
  | allocateStatic data =>
    exact hR.bind (hR.allocate _ _ _) fun p =>
      hR.bind (hR.update _ _ fun _ => ⟨rfl, rfl⟩) fun _ => hR.pure p
  | markPacked p h =>
    exact hR.bind hR.getThe fun m => hR.bind (hR.liftError _) fun x =>
      hR.update _ _ fun _ => ⟨rfl, rfl⟩
  | writeRepeat p cell count align =>
    unfold writeRepeat
    grind
  | markDefinedness p defined h => grind
  | copyBytes source dest align h =>
    unfold copyBytes
    split
    · exact hR.pure _
    · refine hR.bind hR.getThe fun m => hR.bind (hR.liftError _) fun source => ?_
      refine hR.bind (hR.liftError _) fun dest => hR.update _ _ fun b => ?_
      exact Allocation.kept_foldl _ (fun o => dest.2.1 + (o - source.2.1)) _
  | writeScalar p v align h =>
    unfold writeScalar
    grind

end Respected

/-- What holds of a memory whatever operations do to it, and whatever its store is. -/
structure Invariant (I : Memory → Prop) : Prop where
  respected : Respected fun m m' => I m → I m'
  store (m : Memory) (s : Store) : I m → I { m with store := s }

def SameStore (m m' : Memory) : Prop := m'.store = m.store

/-- An allocation takes the next number and counts against the limit. -/
theorem allocate_eq (m : Memory) :
    allocate size align region m =
      if isPowerOfTwo align = false then .error (.error (.invalidAlignment align)) m
      else if m.limit - m.usage < size then
        Run.failReporting [size, m.limit - m.usage] (.memoryLimit size (m.limit - m.usage)) m
      else if maxCells ≤ size then .error .crash { m with next := m.next + 1 }
      else .ok (.known m.next 0) { m with
        next := m.next + 1
        usage := m.usage + size
        allocs := m.allocs ++ [(m.next, ⟨replicate size.toNat (.known 0),
          replicate size.toNat false, align.toNat, region, [], []⟩)] } := by
  unfold allocate
  rw [bind_of_ok (getThe_apply m)]
  cases halign : isPowerOfTwo align with
  | false => rfl
  | true =>
    by_cases hfree : m.limit - m.usage < size
    · simp only [hfree, Bool.not_true, Bool.false_eq_true, if_false, if_true, failReporting_apply]
      exact bind_of_error (failReporting_apply _ _ _)
    · by_cases hmax : maxCells ≤ size
      · simp only [hfree, hmax, Bool.not_true, Bool.false_eq_true, if_false, if_true]
        rfl
      · simp only [hfree, hmax, Bool.not_true, Bool.false_eq_true, if_false]
        rfl

theorem keeps_allocate : Keeps SameStore (allocate size align region) := by
  intro m
  unfold final SameStore
  rw [allocate_eq, failReporting_apply]
  split_ifs <;> rfl

def free (m : Memory) (id : Nat) (a : Allocation) : Memory :=
  { m with allocs := m.allocs.filter (fun (k, _) => k != id), usage := m.usage - a.size }

/-- An allocation is freed as a whole, if it is of the region that is asked for. -/
theorem deallocate_eq (region : Option Region) (m : Memory) :
    deallocate (.known id 0) region m =
      match m.find? id with
      | none => .error (.error (.freeDead id)) m
      | some a =>
        if a.region = .static then .error (.error .freeStatic) m
        else
          match region with
          | none => .ok () (m.free id a)
          | some r =>
            if a.region ≠ r then .error (.error (.freeKind a.region.label r.label)) m
            else .ok () (m.free id a) := by
  refine (bind_of_ok (getThe_apply m)).trans ?_
  cases hfind : m.find? id with
  | none => rfl
  | some a =>
    by_cases hstatic : a.region = .static
    · simp only [hstatic, if_true]
      rfl
    · cases region with
      | none =>
        simp only [hstatic, if_false]
        rfl
      | some r =>
        by_cases hregion : a.region = r
        · subst hregion
          simp only [hstatic, if_false, ne_eq, not_true_eq_false]
          rfl
        · simp only [hstatic, hregion, if_false, ne_eq, not_false_eq_true, if_true]
          rfl

theorem keeps_deallocate (region : Option Region) : Keeps SameStore (deallocate p region) := by
  intro m
  match p with
  | .known id 0 =>
    unfold final SameStore
    rw [deallocate_eq]
    grind [free]
  | .known id (n + 1) => rfl
  | .symbolic id o => rfl

theorem sameStore_respected : Respected SameStore where
  refl _ := rfl
  trans h h' := h'.trans h
  allocate := keeps_allocate
  deallocate := keeps_deallocate
  update _ _ _ _ := rfl

/-- The allocations stand in the order of their numbers, so no two have one number. -/
structure Ordered (m : Memory) : Prop where
  increasing : m.allocs.Pairwise (·.1 < ·.1)
  below : ∀ x ∈ m.allocs, x.1 < m.next

/-- Changing an allocation changes no number. -/
theorem allocs_update (f : Allocation → Allocation) (m : Memory) :
    (m.update id f).allocs = m.allocs.map fun x => (x.1, if x.1 = id then f x.2 else x.2) := by
  refine map_congr_left fun x _ => ?_
  by_cases hid : x.1 = id
  · simp [hid]
  · simp [hid]

theorem mem_update {id : Nat} {f : Allocation → Allocation} {y : Nat × Allocation} :
    y ∈ (m.update id f).allocs ↔ ∃ x ∈ m.allocs, (x.1, if x.1 = id then f x.2 else x.2) = y := by
  rw [allocs_update, mem_map]

theorem find?_update (m : Memory) (id : Nat) (f : Allocation → Allocation) (id' : Nat) :
    (m.update id f).find? id' = (m.find? id').map fun a => if id' = id then f a else a := by
  unfold find?
  rw [allocs_update]
  induction m.allocs with
  | nil => rfl
  | cons x allocs ih =>
    rw [map_cons, lookup_cons, lookup_cons]
    by_cases hid : id' = x.1
    · simp [hid]
    · rw [beq_eq_false_iff_ne.2 hid]
      exact ih

theorem ordered_update (f : Allocation → Allocation) (h : m.Ordered) : (m.update id f).Ordered := by
  constructor
  · rw [allocs_update]
    exact pairwise_map.2 h.increasing
  · intro y hy
    obtain ⟨x, hx, rfl⟩ := mem_update.1 hy
    exact h.below x hx

theorem ordered_add (h : m.Ordered) (a : Allocation) :
    (m.allocs ++ [(m.next, a)]).Pairwise (·.1 < ·.1) ∧
      ∀ x ∈ m.allocs ++ [(m.next, a)], x.1 < m.next + 1 := by
  constructor
  · refine pairwise_append.2 ⟨h.increasing, pairwise_singleton _ _, fun x hx y hy => ?_⟩
    rw [mem_singleton.1 hy]
    exact h.below x hx
  · intro x hx
    rcases mem_append.1 hx with hx | hx
    · exact Nat.lt_succ_of_lt (h.below x hx)
    · rw [mem_singleton.1 hx]
      exact Nat.lt_succ_self _

theorem ordered_allocate (h : m.Ordered) : ((allocate size align region).final m).Ordered := by
  unfold final
  rw [allocate_eq, failReporting_apply]
  split_ifs
  · exact h
  · exact h
  · exact h
  · exact ⟨h.increasing, fun x hx => Nat.lt_succ_of_lt (h.below x hx)⟩
  · obtain ⟨hincreasing, hbelow⟩ := ordered_add h _
    exact ⟨hincreasing, hbelow⟩

theorem ordered_deallocate (region : Option Region) (h : m.Ordered) :
    ((deallocate p region).final m).Ordered := by
  have hfree : ∀ id a, (m.free id a).Ordered := fun id a =>
    ⟨h.increasing.filter _, fun x hx => h.below x (mem_of_mem_filter hx)⟩
  match p with
  | .known id 0 =>
    unfold final
    rw [deallocate_eq]
    grind
  | .known id (n + 1) => exact h
  | .symbolic id o => exact h

theorem ordered_invariant : Invariant Ordered where
  respected :=
    { refl _ := id
      trans h h' := h' ∘ h
      allocate size align region _ := ordered_allocate size align region
      deallocate p region _ := ordered_deallocate p region
      update id f _ _ := ordered_update id f }
  store _ _ h := ⟨h.increasing, h.below⟩

theorem mem_of_lookup {β : Type} {entries : List (Nat × β)} {id : Nat} {b : β}
    (h : entries.lookup id = some b) : (id, b) ∈ entries := by
  induction entries with
  | nil => cases h
  | cons x entries ih =>
    rw [lookup_cons] at h
    split at h
    · rename_i hid
      cases h
      simp [beq_iff_eq.1 hid]
    · exact mem_cons_of_mem _ (ih h)

/-- The symbolic buffer is an allocation that may be freed. -/
structure Releasable (m : Memory) : Prop where
  below : ∀ root ∈ m.root, root < m.next
  region : ∀ root ∈ m.root, ∀ x ∈ m.allocs, x.1 = root → x.2.region ≠ .static

theorem releasable_allocate (h : m.Releasable) :
    ((allocate size align region).final m).Releasable := by
  have hnext : ∀ root ∈ m.root, root < m.next + 1 := fun root hroot =>
    Nat.lt_succ_of_lt (h.below root hroot)
  unfold final
  rw [allocate_eq, failReporting_apply]
  split_ifs
  · exact h
  · exact h
  · exact h
  · exact ⟨hnext, h.region⟩
  · refine ⟨hnext, fun root hroot x hx hnumber => ?_⟩
    rcases mem_append.1 hx with hx | hx
    · exact h.region root hroot x hx hnumber
    · have hlt := h.below root hroot
      rw [mem_singleton.1 hx] at hnumber
      dsimp only at hnumber
      omega

theorem releasable_deallocate (region : Option Region) (h : m.Releasable) :
    ((deallocate p region).final m).Releasable := by
  have hfree : ∀ id a, (m.free id a).Releasable := fun id a =>
    ⟨h.below, fun root hroot x hx => h.region root hroot x (mem_of_mem_filter hx)⟩
  match p with
  | .known id 0 =>
    unfold final
    rw [deallocate_eq]
    grind
  | .known id (n + 1) => exact h
  | .symbolic id o => exact h

theorem releasable_update {f : Allocation → Allocation} (hf : ∀ a, (f a).region = a.region)
    (h : m.Releasable) : (m.update id f).Releasable := by
  refine ⟨h.below, fun root hroot y hy hnumber => ?_⟩
  obtain ⟨x, hx, rfl⟩ := mem_update.1 hy
  have hregion := h.region root hroot x hx hnumber
  dsimp only
  split
  · rwa [hf]
  · exact hregion

theorem releasable_invariant : Invariant Releasable where
  respected :=
    { refl _ := id
      trans h h' := h' ∘ h
      allocate size align region _ := releasable_allocate size align region
      deallocate p region _ := releasable_deallocate p region
      update id _ hf _ := releasable_update id fun a => (hf a).1 }
  store _ _ h := ⟨h.below, h.region⟩

theorem Ordered.map_append (h : m.Ordered) (a : Allocation) (f : Allocation → Allocation) :
    (m.allocs ++ [(m.next, a)]).map (fun (k, b) => if k = m.next then (k, f b) else (k, b))
      = m.allocs ++ [(m.next, f a)] := by
  have hold : m.allocs.map (fun (k, b) => if k = m.next then (k, f b) else (k, b)) = m.allocs := by
    refine (map_congr_left fun x hx => ?_).trans (map_id' _)
    exact if_neg (Nat.ne_of_lt (h.below x hx))
  rw [List.map_append, hold]
  simp

/-- An allocation of fresh symbolic bytes. -/
theorem allocateAbstract_eq_ok {size align : Int} {p : Pointer} {m' : Memory} (hm : m.Ordered)
    (h : allocateAbstract size align m = .ok p m') :
    p = .known m.next 0 ∧ m' = { m with
      next := m.next + 1
      usage := m.usage + size
      allocs := m.allocs ++ [(m.next, ⟨Store.cellsFrom m.store.size size.toNat,
        replicate size.toNat true, align.toNat, .abstract, [], []⟩)]
      store := m.store.extend [.input size.toNat] } := by
  obtain ⟨q, m1, hq, hrest⟩ := bind_eq_ok.1 h
  rw [allocate_eq, failReporting_apply] at hq
  split_ifs at hq
  cases hq
  cases hrest
  refine ⟨rfl, ?_⟩
  have hmap := hm.map_append ⟨replicate size.toNat (.known 0), replicate size.toNat false,
    align.toNat, .abstract, [], []⟩ fun a => { a with
      cells := Store.cellsFrom m.store.size size.toNat
      defined := replicate (Store.cellsFrom m.store.size size.toNat).length true }
  unfold update
  simp only [Pointer.alloc, Memory.mk.injEq, true_and, and_true]
  refine ⟨hmap.trans ?_, rfl⟩
  simp [Store.cellsFrom]

theorem store_makeSymbolic (size : Int) (m : Memory) :
    ((makeSymbolic p size).final m).store = m.store.extend [.input size.toNat] :=
  sameStore_respected.writeBytes p (Store.cellsFrom m.store.size size.toNat) 1
    { m with store := m.store.extend [.input size.toNat] }

end Memory

/-! ## Machines -/

namespace Machine

/-- The machine is the same path further on, and `S` relates the stores. A frame that is new belongs
to a function of the program. -/
structure Extends (S : Store → Store → Prop) (m m' : Machine) : Prop where
  program : m'.program = m.program
  limits : m'.limits = m.limits
  functions : ∀ f ∈ m'.stack, (∃ g ∈ m.stack, g.function = f.function) ∨
    ∃ name, m.program.find? name = some f.function
  store : S m.memory.store m'.memory.store

/-- The machine changes in its memory and call stack only. -/
structure Steady (S : Store → Store → Prop) (m m' : Machine) : Prop extends Extends S m m' where
  steps : m'.steps = m.steps
  pending : m'.pending = m.pending

section Steady

variable {S : Store → Store → Prop} {m : Machine}

theorem extends_of_stack {m' : Machine} (hprogram : m'.program = m.program)
    (hlimits : m'.limits = m.limits) (hstack : m'.stack = m.stack)
    (h : S m.memory.store m'.memory.store) : Extends S m m' :=
  ⟨hprogram, hlimits, fun f hf => .inl ⟨f, hstack ▸ hf, rfl⟩, h⟩

theorem extends_composes (hS : Composes S) : Composes (Extends S) where
  refl m := extends_of_stack rfl rfl rfl (hS.refl m.memory.store)
  trans {m m1 m2} h h' := by
    refine ⟨h'.program.trans h.program, h'.limits.trans h.limits, fun f hf => ?_,
      hS.trans h.store h'.store⟩
    rcases h'.functions f hf with ⟨g, hg, hgf⟩ | ⟨name, hname⟩
    · rw [← hgf]
      exact h.functions g hg
    · exact .inr ⟨name, h.program ▸ hname⟩

theorem steady_of_memory {memory : Memory} (h : S m.memory.store memory.store) :
    Steady S m { m with memory := memory } :=
  ⟨extends_of_stack rfl rfl rfl h, rfl, rfl⟩

theorem steady_composes (hS : Composes S) : Composes (Steady S) where
  refl m := steady_of_memory (hS.refl m.memory.store)
  trans h h' := ⟨(extends_composes hS).trans h.toExtends h'.toExtends, h'.steps.trans h.steps,
    h'.pending.trans h.pending⟩

theorem final_onStore (act : Run Store α) (m : Machine) :
    (onStore act).final m
      = { m with memory := { m.memory with store := act.final m.memory.store } } := by
  rw [onStore, final_onMemory]
  unfold final Memory.onStore
  cases act m.memory.store <;> rfl

theorem steady_onMemory (hS : Composes S) (h : Keeps Memory.SameStore act) :
    Keeps (Steady S) (onMemory act) := by
  intro m
  rw [final_onMemory]
  apply steady_of_memory
  rw [h m.memory]
  exact hS.refl _

theorem steady_closed (hS : Composes S) (hderives : ∀ s s', s.Derives s' → S s s') :
    Closed P (Steady S) where
  toComposes := steady_composes hS
  edit h := steady_onMemory hS (Memory.sameStore_respected.edit h)
  allocate _ _ _ := steady_onMemory hS (Memory.keeps_allocate _ _ _)
  deallocate p region := steady_onMemory hS (Memory.keeps_deallocate p region)
  store h m := by
    rw [final_onStore]
    exact steady_of_memory (hderives _ _ (Store.keeps_derives h _))
  move m f rest block stmt h := by
    refine ⟨⟨rfl, rfl, fun g hg => .inl ?_, hS.refl _⟩, rfl, rfl⟩
    rcases mem_cons.1 hg with rfl | hg
    · exact ⟨f, by simp [h], rfl⟩
    · exact ⟨g, by simp [h, hg], rfl⟩
  push m f h := by
    refine ⟨⟨rfl, rfl, fun g hg => ?_, hS.refl _⟩, rfl, rfl⟩
    rcases mem_cons.1 hg with rfl | hg
    · exact .inr h
    · exact .inl ⟨g, hg, rfl⟩
  pop m := ⟨⟨rfl, rfl, fun g hg => .inl ⟨g, mem_of_mem_drop hg, rfl⟩, hS.refl _⟩, rfl, rfl⟩

theorem steady_symbolizes (hinput : ∀ s n, S s (s.extend [.input n])) : Symbolizes (Steady S) := by
  intro p size m
  rw [final_onMemory]
  apply steady_of_memory
  rw [Memory.store_makeSymbolic]
  exact hinput _ _

theorem steady_assumes (hS : Composes S)
    (hcondition : ∀ (s : Store) c, (∀ i ∈ c.symbols, i < s.size) → S s (s.push c)) :
    Assumes (Steady S) := by
  intro list m
  rw [final_onStore]
  apply steady_of_memory
  apply Keeps.getBind
  intro s
  refine hS.liftBind_final fun c hc => ?_
  exact hcondition s c (Store.symbols_truth_lt hc)

end Steady

section Invariant

variable {I : Memory → Prop} (hI : Memory.Invariant I)
include hI

theorem invariant_closed : Closed P fun m m' => I m.memory → I m'.memory where
  refl _ := id
  trans h h' := h' ∘ h
  edit h m := by
    rw [final_onMemory]
    exact hI.respected.edit h m.memory
  allocate _ _ _ m := by
    rw [final_onMemory]
    exact hI.respected.allocate _ _ _ m.memory
  deallocate p region m := by
    rw [final_onMemory]
    exact hI.respected.deallocate p region m.memory
  store h m hm := by
    rw [final_onStore]
    exact hI.store _ _ hm
  move _ _ _ _ _ _ := id
  push _ _ _ := id
  pop _ := id

theorem invariant_symbolizes : Symbolizes fun m m' => I m.memory → I m'.memory := by
  intro p size m hm
  rw [final_onMemory]
  exact hI.respected.writeBytes p _ 1 _ (hI.store _ _ hm)

theorem invariant_assumes : Assumes fun m m' => I m.memory → I m'.memory := by
  intro list m hm
  rw [final_onStore]
  exact hI.store _ _ hm

end Invariant

end Machine
end SymExec

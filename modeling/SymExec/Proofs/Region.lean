import SymExec.Proofs.Memory

/-!
# Allocations by region

What is live in a region is known from the numbers and sizes of its allocations (`Memory.live`).
Edits change nothing of it but in the static region (`Memory.Retains`). An allocation is added to its
region and to no other, and freeing takes it away.
-/
namespace SymExec

open Run List

namespace Memory

variable {m m' : Memory} {r : Region} {id : Nat} {a : Allocation}

def live (m : Memory) (r : Region) : List (Nat × Region × Nat) := m.outline.filter fun x => x.2.1 == r

def numbers (m : Memory) (r : Region) : List Nat := (m.live r).map Prod.fst

def bytes (m : Memory) (r : Region) : Nat := ((m.live r).map fun x => x.2.2).sum

theorem mem_numbers : id ∈ m.numbers r ↔ ∃ x ∈ m.allocs, x.2.region = r ∧ x.1 = id := by
  simp only [numbers, live, outline, mem_map, mem_filter, beq_iff_eq]
  constructor
  · rintro ⟨-, ⟨⟨x, hx, rfl⟩, hregion⟩, rfl⟩
    exact ⟨x, hx, hregion, rfl⟩
  · rintro ⟨x, hx, rfl, rfl⟩
    exact ⟨_, ⟨⟨x, hx, rfl⟩, rfl⟩, rfl⟩

theorem Ordered.nodup_numbers (h : m.Ordered) (r : Region) : (m.numbers r).Nodup := by
  have hnumbers : (m.outline.map Prod.fst).Nodup := by
    rw [outline, map_map]
    exact pairwise_map.2 (h.increasing.imp Nat.ne_of_lt)
  exact hnumbers.sublist (filter_sublist.map Prod.fst)

theorem leaked_eq (m : Memory) : m.leaked = m.bytes .stack + m.bytes .heap + m.bytes .abstract := by
  simp only [leaked, bytes, live, outline]
  induction m.allocs with
  | nil => rfl
  | cons x allocs ih =>
    obtain ⟨id, a⟩ := x
    cases hregion : a.region <;> simp [hregion] at ih ⊢ <;> omega

/-! ## Edits -/

/-- Nothing but static allocations may have come. -/
structure Retained (m m' : Memory) : Prop where
  regular : m'.Regular
  root : m'.root = m.root
  live : ∀ r, r ≠ .static → m'.live r = m.live r

def Retains (m m' : Memory) : Prop := m.Regular → m.Retained m'

theorem retains_composes : Composes Retains where
  refl _ h := ⟨h, rfl, fun _ _ => rfl⟩
  trans {m m1 m2} h h' hm := by
    have h1 := h hm
    have h2 := h' h1.regular
    exact ⟨h2.regular, h2.root.trans h1.root, fun r hr => (h2.live r hr).trans (h1.live r hr)⟩

theorem retains_of_rewrites (h : Rewrites m m') : Retains m m' := fun hm =>
  ⟨(h hm).regular, (h hm).root, fun r _ => by rw [live, live, (h hm).outline]⟩

structure Added (m m' : Memory) (region : Region) (size : Nat) : Prop where
  regular : m'.Regular
  root : m'.root = m.root
  live : m'.live region = m.live region ++ [(m.next, region, size)]
  others : ∀ r, r ≠ region → m'.live r = m.live r

theorem added_of_allocate {size align : Int} {region : Region} {p : Pointer} (hm : m.Regular)
    (h : allocate size align region m = .ok p m') :
    p = .known m.next 0 ∧ m.Added m' region size.toNat := by
  obtain ⟨rfl, rfl⟩ := allocate_eq_ok h
  have hregular := regular_add hm (valid_fresh size align region) (m.usage + size)
  have houtline : ∀ r, ({ m with
      next := m.next + 1
      usage := m.usage + size
      allocs := m.allocs ++ [(m.next, fresh size align region)] } : Memory).live r
        = m.live r ++ [(m.next, region, size.toNat)].filter fun x => x.2.1 == r := by
    intro r
    simp [Memory.live, outline, fresh, Allocation.size]
  refine ⟨rfl, hregular, rfl, ?_, fun r hr => ?_⟩
  · rw [houtline]
    simp
  · rw [houtline]
    simp [Ne.symm hr]

theorem retains_allocateStatic (data : List (BitVec 8)) : Keeps Retains (allocateStatic data) := by
  intro m hm
  have hsame := retains_composes.refl m hm
  refine retains_composes.bind_final (fun _ => ?_) (fun p m1 h hm1 => ?_) hm
  · cases h : allocate data.length 1 .static m with
    | ok p m1 =>
      obtain ⟨-, hadded⟩ := added_of_allocate hm h
      rw [final_of_ok h]
      exact ⟨hadded.regular, hadded.root, hadded.others⟩
    | error e m1 =>
      rw [final_of_error h]
      rw [allocate_eq, failReporting_apply] at h
      split_ifs at h <;> cases h
      · exact hsame
      · exact hsame
      · exact hsame
      · exact ⟨regular_skip hm, rfl, fun _ _ => rfl⟩
  · refine retains_composes.bind_final (fun hm1 => ?_) (fun _ _ _ => retains_composes.refl _) hm1
    exact retains_of_rewrites (fun _ => rewritten_filled hm h m1.store (by simp)) hm1

theorem retains_edit {α : Type} {act : Run Memory α} (h : Edit True act) : Keeps Retains act :=
  h.keeps retains_allocateStatic fun _ _ => retains_of_rewrites

/-! ## Freeing -/

theorem live_free (m : Memory) (id : Nat) (a : Allocation) (r : Region) :
    (m.free id a).live r = (m.live r).filter fun x => x.1 != id := by
  simp only [live, outline, free, filter_map, filter_filter, Function.comp_def,
    Bool.and_comm]

theorem live_free_of_ne (hm : m.Ordered) (hfind : m.find? id = some a) (hr : r ≠ a.region) :
    (m.free id a).live r = m.live r := by
  rw [live_free, filter_eq_self]
  intro x hx
  obtain ⟨hmem, hregion⟩ := mem_filter.1 hx
  obtain ⟨y, hy, rfl⟩ := mem_map.1 hmem
  refine bne_iff_ne.2 fun hid => hr ?_
  rw [← beq_iff_eq.1 hregion, hm.eq_of_number hy (mem_of_lookup hfind) hid]

theorem numbers_free (m : Memory) (id : Nat) (a : Allocation) (r : Region) :
    (m.free id a).numbers r = (m.numbers r).filter fun k => k != id := by
  rw [numbers, live_free, numbers, filter_map]
  rfl

/-- The bytes of a freed allocation are no longer held. -/
theorem bytes_free (hm : m.Ordered) (hfind : m.find? id = some a) :
    a.size + (m.free id a).bytes a.region = m.bytes a.region := by
  have hmem : (id, a.region, a.size) ∈ m.live a.region :=
    mem_filter.2 ⟨mem_map.2 ⟨_, mem_of_lookup hfind, rfl⟩, by simp⟩
  have hnumbers := hm.nodup_numbers a.region
  have herase : (m.free id a).live a.region = (m.live a.region).erase (id, a.region, a.size) := by
    rw [live_free, hnumbers.of_map.erase_eq_filter]
    refine filter_congr fun x hx => ?_
    rw [Bool.eq_iff_iff, bne_iff_ne, bne_iff_ne, not_iff_not]
    refine ⟨fun hid => inj_on_of_nodup_map hnumbers hx hmem hid, fun h => by rw [h]⟩
  have hsum := ((perm_cons_erase hmem).map fun x => x.2.2).sum_eq
  rw [bytes, bytes, herase, hsum, map_cons, sum_cons]

theorem Ordered.find?_eq_some (hm : m.Ordered) (hmem : (id, a) ∈ m.allocs) : m.find? id = some a := by
  cases hfind : m.find? id with
  | none =>
    have habsent := lookup_eq_none_iff.1 hfind _ hmem
    simp at habsent
  | some b =>
    have hsame := hm.eq_of_number (mem_of_lookup hfind) hmem rfl
    rw [(Prod.mk.inj hsame).2]

/-- An allocation that is live in a region can be freed. -/
theorem deallocate_of_mem (hm : m.Ordered) (hr : r ≠ .static) (hid : id ∈ m.numbers r) :
    ∃ a, m.find? id = some a ∧ a.region = r ∧
      deallocate (.known id 0) (some r) m = .ok () (m.free id a) := by
  obtain ⟨⟨k, a⟩, hx, rfl, rfl⟩ := mem_numbers.1 hid
  have hfind := hm.find?_eq_some hx
  refine ⟨a, hfind, rfl, ?_⟩
  simp [deallocate_eq, hfind, hr]

/-- What is freed is live in the region that is asked for. -/
theorem deallocate_eq_ok {p : Pointer} (h : deallocate p (some r) m = .ok () m') :
    ∃ id a, p = .known id 0 ∧ m.find? id = some a ∧ a.region = r ∧ m' = m.free id a := by
  cases p with
  | symbolic id o => cases h
  | known id offset =>
    cases offset with
    | succ n => cases h
    | zero =>
      rw [deallocate_eq] at h
      cases hfind : m.find? id with
      | none => simp [hfind] at h
      | some a =>
        simp only [hfind] at h
        split_ifs at h with hstatic hregion
        cases h
        exact ⟨id, a, rfl, hfind, not_not.1 hregion, rfl⟩

end Memory
end SymExec

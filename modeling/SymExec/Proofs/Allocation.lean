import SymExec.Proofs.Mirror.Memory

/-!
# Allocations that are well-formed

An allocation says of each of its bytes whether it is defined. A stored pointer stands on eight bytes
of its own, which are defined and zero, and exemptions from alignment lie inside the allocation
(`Allocation.Valid`). Overwriting bytes, marking them and storing pointers keep this, and so does a
copy between allocations, or within one (`Memory.valid_received`).
-/
namespace SymExec

open Section List

variable {size stop : Int}

/-! ## Sections -/

namespace Section

variable {α : Type} {xs items : List α} {start : Nat}

theorem splice_eq (hstop : stop = start + items.length) (hle : start + items.length ≤ xs.length) :
    splice xs start stop items = xs.take start ++ items ++ xs.drop (start + items.length) := by
  have hstart : resolve xs.length start = start := resolve_of_le (by omega) (by omega)
  have hresolve : resolve xs.length stop = start + items.length := by
    rw [resolve_of_le (by omega) (by omega)]
    omega
  simp only [splice, hstart, hresolve]
  rw [Nat.max_eq_right (Nat.le_add_right _ _)]

theorem length_splice (hstop : stop = start + items.length) (hle : start + items.length ≤ xs.length) :
    (splice xs start stop items).length = xs.length := by
  rw [splice_eq hstop hle]
  simp
  omega

/-- Items that are put in a place are found there. -/
theorem slice_splice (hle : start + items.length ≤ xs.length) :
    slice (splice xs start (start + items.length) items) start (start + items.length) = items := by
  have hlength : (splice xs start (start + items.length) items).length = xs.length := length_splice rfl hle
  have hstart : resolve xs.length start = start := resolve_of_le (by omega) (by omega)
  have hstop : resolve xs.length (start + items.length) = start + items.length := by
    rw [resolve_of_le (by omega) (by omega)]
    omega
  have htake : (xs.take start).length = start := by
    rw [length_take]
    omega
  rw [slice, hlength, hstart, hstop, splice_eq rfl hle, append_assoc, drop_left' htake,
    Nat.add_sub_cancel_left, take_left]

/-- New items stand in their range, and old ones outside. -/
theorem getElem?_splice (hstop : stop = start + items.length)
    (hle : start + items.length ≤ xs.length) (k : Nat) :
    (splice xs start stop items)[k]? =
      if start ≤ k ∧ k < start + items.length then items[k - start]? else xs[k]? := by
  have htake : (xs.take start).length = start := by
    rw [length_take]
    omega
  rw [splice_eq hstop hle]
  by_cases hbefore : k < start
  · rw [if_neg (by omega), append_assoc, getElem?_append_left (by omega),
      getElem?_take_of_lt hbefore]
  · rw [append_assoc, getElem?_append_right (by omega), htake]
    by_cases hafter : k < start + items.length
    · rw [if_pos (by omega), getElem?_append_left (by omega)]
    · rw [if_neg (by omega), getElem?_append_right (by omega), getElem?_drop]
      congr 1
      omega

theorem getElem?_slice (hpos : 0 ≤ size) (hle : (start : Int) + size ≤ xs.length) {k : Nat}
    (hk : (k : Int) < size) : (slice xs start (start + size))[k]? = xs[start + k]? := by
  have hstart : resolve xs.length start = start := resolve_of_le (by omega) (by omega)
  have hstop : resolve xs.length (start + size) = start + size.toNat := by
    rw [resolve_of_le (by omega) hle]
    omega
  simp only [slice, hstart, hstop]
  rw [getElem?_take_of_lt (by omega), getElem?_drop]

end Section

/-! ## Allocations -/

namespace Allocation

variable {cells : List Cell} {defined : List Bool} {o : Nat} {r : Nat × Pointer}

/-- Pointers stored at the offsets have no byte in common. -/
def Apart (offset offset' : Nat) : Prop :=
  offset + pointerSize ≤ offset' ∨ offset' + pointerSize ≤ offset

def ZerosAt (a : Allocation) (offset : Nat) : Prop :=
  ∀ k < pointerSize, a.cells[offset + k]? = some (.known 0) ∧ a.defined[offset + k]? = some true

/-- An allocation whose tables agree with each other. -/
structure Valid (a : Allocation) : Prop where
  marked : a.defined.length = a.cells.length
  zeros : ∀ r ∈ a.relocations, a.ZerosAt r.1
  apart : a.relocations.Pairwise fun r r' => Apart r.1 r'.1
  packed : ∀ q ∈ a.packed, 0 ≤ q.2 ∧ (q.1 : Int) + q.2 ≤ a.size

variable {a : Allocation} {offset : Nat}

/-- A stored pointer lies inside its allocation. -/
theorem ZerosAt.le (h : a.ZerosAt offset) : offset + pointerSize ≤ a.size := by
  have hlast := (List.getElem?_eq_some_iff.1 (h 7 (by decide)).1).1
  unfold pointerSize size
  omega

/-- A pointer that keeps clear of a range lies before it or after it. -/
theorem apart_of_not_overlaps {start : Int} (h : overlaps start stop offset = false) :
    stop ≤ offset ∨ (offset : Int) + pointerSize ≤ start := by
  simp only [overlaps, Bool.and_eq_false_iff, decide_eq_false_iff_not] at h
  omega

/-- Overwrites bytes and says which of them are defined. -/
def overwrite (a : Allocation) (offset : Nat) (cells : List Cell) (defined : List Bool) :
    Allocation :=
  let stop : Int := offset + cells.length
  { a.clear offset stop with
    cells := splice a.cells offset stop cells
    defined := splice a.defined offset stop defined }

theorem size_overwrite (hle : offset + cells.length ≤ a.size) :
    (a.overwrite offset cells defined).size = a.size :=
  length_splice rfl hle

/-- Bytes outside the range stay as they are. -/
theorem ZerosAt.overwrite (h : a.ZerosAt o) (hmarked : a.defined.length = a.cells.length)
    (hdefined : defined.length = cells.length) (hle : offset + cells.length ≤ a.size)
    (hclear : overlaps offset (offset + cells.length) o = false) :
    (a.overwrite offset cells defined).ZerosAt o := by
  intro k hk
  have houtside := apart_of_not_overlaps hclear
  have hnot : ¬ (offset ≤ o + k ∧ o + k < offset + cells.length) := by omega
  have hcells : (a.overwrite offset cells defined).cells[o + k]? = a.cells[o + k]? := by
    refine (getElem?_splice rfl hle (o + k)).trans (if_neg hnot)
  have hbits : (a.overwrite offset cells defined).defined[o + k]? = a.defined[o + k]? := by
    refine (getElem?_splice (by rw [hdefined]) ?_ (o + k)).trans (if_neg ?_)
    · rwa [hdefined, hmarked]
    · rwa [hdefined]
  rw [hcells, hbits]
  exact h k hk

/-- Bytes that are overwritten are as they were given. -/
theorem zerosAt_overwrite (hmarked : a.defined.length = a.cells.length)
    (hdefined : defined.length = cells.length) (hle : offset + cells.length ≤ a.size)
    (h : ∀ k < pointerSize, cells[o + k]? = some (.known 0) ∧ defined[o + k]? = some true) :
    (a.overwrite offset cells defined).ZerosAt (offset + o) := by
  intro k hk
  have hinside := (List.getElem?_eq_some_iff.1 (h k hk).1).1
  have hrange : offset ≤ offset + o + k ∧ offset + o + k < offset + cells.length := by omega
  have hindex : offset + o + k - offset = o + k := by omega
  have hcells : (a.overwrite offset cells defined).cells[offset + o + k]? = cells[o + k]? := by
    refine (getElem?_splice rfl hle _).trans ((if_pos hrange).trans ?_)
    rw [hindex]
  have hbits : (a.overwrite offset cells defined).defined[offset + o + k]? = defined[o + k]? := by
    refine (getElem?_splice (by rw [hdefined]) ?_ _).trans ((if_pos ?_).trans ?_)
    · rwa [hdefined, hmarked]
    · rwa [hdefined]
    · rw [hindex]
  rw [hcells, hbits]
  exact h k hk

theorem Valid.overwrite (h : a.Valid) (hdefined : defined.length = cells.length)
    (hle : offset + cells.length ≤ a.size) : (a.overwrite offset cells defined).Valid := by
  have hsize : (a.overwrite offset cells defined).size = a.size := size_overwrite hle
  constructor
  · have hbits : (a.overwrite offset cells defined).defined.length = a.defined.length :=
      length_splice (by rw [hdefined]) (by rwa [hdefined, h.marked])
    exact hbits.trans (h.marked.trans hsize.symm)
  · intro r hr
    obtain ⟨hr, hclear⟩ := mem_filter.1 hr
    exact (h.zeros r hr).overwrite h.marked hdefined hle (by simpa using hclear)
  · exact h.apart.filter _
  · intro q hq
    rw [hsize]
    exact h.packed q hq

theorem write_eq_overwrite (a : Allocation) (offset : Nat) (cells : List Cell) :
    a.write offset cells = a.overwrite offset cells (replicate cells.length true) := by
  simp only [write, Allocation.overwrite, Int.natCast_add]
  rfl

theorem mark_false_eq_overwrite (hpos : 0 ≤ size) (hle : (offset : Int) + size ≤ a.size) :
    a.mark offset size false = a.overwrite offset (slice a.cells offset (offset + size))
      (replicate size.toNat false) := by
  have hlength : (slice a.cells offset (offset + size)).length = size.toNat :=
    length_slice _ hpos hle
  have hcast : (offset : Int) + size.toNat = offset + size := by omega
  simp only [mark, Allocation.overwrite, hlength, hcast, splice_slice _ hpos hle]
  rfl

theorem Valid.mark (h : a.Valid) (hpos : 0 ≤ size) (hle : (offset : Int) + size ≤ a.size)
    (defined : Bool) :
    (a.mark offset size defined).Valid ∧ (a.mark offset size defined).size = a.size := by
  cases defined with
  | false =>
    have hlength : (slice a.cells offset (offset + size)).length = size.toNat :=
      length_slice _ hpos hle
    rw [mark_false_eq_overwrite hpos hle]
    exact ⟨h.overwrite (by simp [hlength]) (by omega), size_overwrite (by omega)⟩
  | true =>
    have hlength : (replicate size.toNat true).length = size.toNat := length_replicate
    have hstop : (offset : Int) + size = offset + (replicate size.toNat true).length := by
      rw [hlength]
      omega
    have hinside : offset + (replicate size.toNat true).length ≤ a.defined.length := by
      rw [hlength, h.marked]
      unfold Allocation.size at hle
      omega
    refine ⟨⟨?_, fun r hr k hk => ?_, h.apart, h.packed⟩, rfl⟩
    · exact (length_splice hstop hinside).trans h.marked
    · obtain ⟨hcell, hbit⟩ := h.zeros r hr k hk
      refine ⟨hcell, (getElem?_splice hstop hinside _).trans ?_⟩
      split
      · rw [getElem?_replicate, if_pos (by omega)]
      · exact hbit

theorem Valid.relocate (h : a.Valid) (hzeros : a.ZerosAt offset)
    (hapart : ∀ r ∈ a.relocations, Apart r.1 offset) (p : Pointer) :
    (a.relocate offset p).Valid := by
  refine ⟨h.marked, fun r hr => ?_, ?_, h.packed⟩
  · rcases mem_append.1 hr with hr | hr
    · exact h.zeros r (mem_filter.1 hr).1
    · rw [mem_singleton.1 hr]
      exact hzeros
  · refine pairwise_append.2 ⟨h.apart.filter _, pairwise_singleton _ _, fun r hr r' hr' => ?_⟩
    rw [mem_singleton.1 hr']
    exact hapart r (mem_filter.1 hr).1

/-- Pointers are stored one after the other, each on bytes of its own. -/
theorem Valid.foldl_relocate (h : a.Valid) {moved : List (Nat × Pointer)} (place : Nat → Nat)
    (hzeros : ∀ r ∈ moved, a.ZerosAt (place r.1))
    (hapart : ∀ r ∈ moved, ∀ r' ∈ a.relocations, Apart r'.1 (place r.1))
    (hmoved : moved.Pairwise fun r r' => Apart (place r.1) (place r'.1)) :
    (moved.foldl (fun b (o, target) => b.relocate (place o) target) a).Valid ∧
      (moved.foldl (fun b (o, target) => b.relocate (place o) target) a).size = a.size := by
  induction moved generalizing a with
  | nil => exact ⟨h, rfl⟩
  | cons r moved ih =>
    rw [pairwise_cons] at hmoved
    have hvalid := h.relocate (hzeros r (by simp)) (hapart r (by simp)) r.2
    refine ih hvalid (fun r' hr' => hzeros r' (by simp [hr'])) (fun r' hr' x hx => ?_) hmoved.2
    rcases mem_append.1 hx with hx | hx
    · exact hapart r' (by simp [hr']) x (mem_filter.1 hx).1
    · rw [mem_singleton.1 hx]
      exact hmoved.1 r' hr'

/-- A pointer that is left when a range is overwritten keeps clear of what is stored in the range. -/
theorem apart_overwrite (hr : r ∈ (a.overwrite offset cells defined).relocations)
    (hlow : offset ≤ o) (hhigh : o + pointerSize ≤ offset + cells.length) : Apart r.1 o := by
  have hclear := (mem_filter.1 hr).2
  have houtside := apart_of_not_overlaps (Bool.not_eq_true' _ ▸ hclear)
  unfold Apart
  omega

/-- The stored pointers that lie in a range. -/
def within (a : Allocation) (start : Nat) (size : Int) : List (Nat × Pointer) :=
  a.relocations.filter fun (o, _) => start ≤ o && (o : Int) + pointerSize ≤ start + size

theorem mem_within {start : Nat} :
    r ∈ a.within start size ↔
      r ∈ a.relocations ∧ start ≤ r.1 ∧ (r.1 : Int) + pointerSize ≤ start + size := by
  simp [within]

/-- Pointers that are moved together stay apart. -/
theorem Valid.apart_within (h : a.Valid) (start offset : Nat) (size : Int) :
    (a.within start size).Pairwise fun r r' =>
      Apart (offset + (r.1 - start)) (offset + (r'.1 - start)) := by
  refine (h.apart.filter _).imp_of_mem fun {x y} hx hy hapart => ?_
  obtain ⟨-, hx, -⟩ := mem_within.1 hx
  obtain ⟨-, hy, -⟩ := mem_within.1 hy
  unfold Apart at hapart ⊢
  omega

end Allocation

namespace Memory

open Allocation

variable {offset : Nat} {a b : Allocation}

/-- Bytes are copied first, and then the pointers that lie among them. -/
theorem received_eq {start : Nat} (hpos : 0 ≤ size) (hstart : (start : Int) + size ≤ a.size) :
    received (slice a.cells start (start + size))
      (slice a.defined start (start + size)) (a.within start size) start offset size b =
    (a.within start size).foldl (fun b (o, target) => b.relocate (offset + (o - start)) target)
      (b.overwrite offset (slice a.cells start (start + size))
        (slice a.defined start (start + size))) := by
  have hcast : (offset : Int) + size.toNat = offset + size := by omega
  simp only [received, Allocation.overwrite, length_slice _ hpos hstart, hcast]
  rfl

/-- Bytes and pointers that are copied from a valid allocation leave the other one valid. -/
theorem valid_received (ha : a.Valid) (hb : b.Valid) {start : Nat} (hpos : 0 ≤ size)
    (hstart : (start : Int) + size ≤ a.size) (hoffset : (offset : Int) + size ≤ b.size) :
    let r := received (slice a.cells start (start + size))
      (slice a.defined start (start + size)) (a.within start size) start offset size b
    r.Valid ∧ r.size = b.size := by
  have hcells : (slice a.cells start (start + size)).length = size.toNat :=
    length_slice _ hpos hstart
  have hbits : (slice a.defined start (start + size)).length = size.toNat :=
    length_slice _ hpos (by rw [ha.marked]; exact hstart)
  have hsize : (b.overwrite offset (slice a.cells start (start + size))
      (slice a.defined start (start + size))).size = b.size := size_overwrite (by omega)
  have hvalid : (b.overwrite offset (slice a.cells start (start + size))
      (slice a.defined start (start + size))).Valid :=
    hb.overwrite (by rw [hcells, hbits]) (by omega)
  rw [received_eq hpos hstart, ← hsize]
  refine hvalid.foldl_relocate (fun o => offset + (o - start)) (fun x hx => ?_)
    (fun x hx y hy => ?_) (ha.apart_within start offset size)
  · obtain ⟨hx, hlow, hhigh⟩ := mem_within.1 hx
    refine zerosAt_overwrite hb.marked (by rw [hcells, hbits]) (by omega) fun k hk => ?_
    have hindex : start + (x.1 - start + k) = x.1 + k := by omega
    rw [getElem?_slice hpos hstart (by omega),
      getElem?_slice hpos (by rw [ha.marked]; exact hstart) (by omega), hindex]
    exact ha.zeros x hx k hk
  · obtain ⟨-, hlow, hhigh⟩ := mem_within.1 hx
    exact apart_overwrite hy (by omega) (by omega)

end Memory
end SymExec

import SymExec.Proofs.Origin
import SymExec.Proofs.Unchanged

/-!
# Copies are read as their source was

A copy moves bytes, says which are defined, and moves the stored pointers that lie in the source range.
What is read from the destination afterwards is what was read from the source before, value or error,
however the two ranges overlap (`Memory.reads_copyBytes`). The exception are reads that touch a pointer
with bytes both inside and outside of the source range: such a pointer is not copied.
-/
namespace SymExec

open Run Section

theorem Section.slice_splice_slice {α : Type} {xs ys : List α} {start offset i : Nat} {size n stop : Int}
    (hn : 0 ≤ n) (hle : i + n ≤ size) (hstart : (start : Int) + size ≤ ys.length)
    (hoffset : (offset : Int) + size ≤ xs.length) (hstop : stop = offset + size) :
    slice (splice xs offset stop (slice ys start (start + size))) (offset + i : Nat)
        ((offset + i : Nat) + n) = slice ys (start + i : Nat) ((start + i : Nat) + n) := by
  have hsize : 0 ≤ size := by omega
  have hlength := length_slice ys hsize hstart
  have hbounds : offset + (slice ys start (start + size)).length ≤ xs.length := by omega
  have hstop : stop = offset + (slice ys start (start + size)).length := by omega
  have hkept := length_splice hstop hbounds
  refine slice_congr hn (by omega) (by omega) fun k hk => ?_
  have hindex : offset + i + k - offset = i + k := by omega
  rw [getElem?_splice hstop hbounds, if_pos (by omega), hindex, getElem?_slice hsize hstart (by omega),
    Nat.add_assoc]

namespace Allocation

/-- A pointer stored at `offset` has bytes on both sides of an edge. -/
def Straddles (edge : Int) (offset : Nat) : Prop :=
  (offset : Int) < edge ∧ edge < offset + pointerSize

instance (edge : Int) (offset : Nat) : Decidable (Straddles edge offset) :=
  inferInstanceAs (Decidable (_ ∧ _))

/-- A pointer with bytes in a part of a range lies in the range, or straddles one of its ends. -/
theorem within_or_straddles {start stop low high : Int} {x : Nat} (hlow : start ≤ low)
    (hhigh : high ≤ stop) (h : overlaps low high x) :
    (start ≤ x ∧ (x : Int) + pointerSize ≤ stop) ∨ Straddles start x ∨ Straddles stop x := by
  simp only [overlaps, Bool.and_eq_true, decide_eq_true_eq] at h
  unfold Straddles
  omega

variable {a b : Allocation} {start offset : Nat} {size : Int}

/-- The bytes are overwritten, and the moved pointers are added to those that are left. -/
theorem copyFrom_eq (ha : a.Valid) (b : Allocation) (offset : Nat) (hsize : 0 ≤ size)
    (hstart : (start : Int) + size ≤ a.size) :
    b.copyFrom a start offset size =
      let b := b.overwrite offset (slice a.cells start (start + size))
        (slice a.defined start (start + size))
      { b with relocations :=
          b.relocations ++ (a.within start size).map fun r => (offset + (r.1 - start), r.2) } := by
  have hlength : (slice a.cells start (start + size)).length = size.toNat :=
    length_slice _ hsize hstart
  rw [copyFrom, Memory.received_eq hsize hstart, foldl_relocate_eq _ fun o => offset + (o - start),
    relocations_foldl (fun o => offset + (o - start)) (fun x hx y hy => ?_)
      (ha.apart_within start offset size)]
  obtain ⟨-, hlow, hhigh⟩ := mem_within.1 hx
  exact apart_overwrite hy (by omega) (by omega)

section Part

variable {i : Nat} {n : Int} (hle : i + n ≤ size)
  (hwhole : ∀ r ∈ a.relocations, Straddles start r.1 ∨ Straddles (start + size) r.1 →
    overlaps (start + i) (start + i + n) r.1 = false)
include hle hwhole

/-- Where no pointer straddles an end of the range, the pointers of its parts are moved. -/
theorem within_of_overlaps {r : Nat × Pointer} (hr : r ∈ a.relocations)
    (hin : overlaps (start + i) (start + i + n) r.1) :
    start ≤ r.1 ∧ (r.1 : Int) + pointerSize ≤ start + size := by
  have hlow : (start : Int) ≤ start + i := by omega
  have hhigh : (start : Int) + i + n ≤ start + size := by omega
  rcases within_or_straddles hlow hhigh hin with hwithin | hcut
  · omega
  · rw [hwhole r hr hcut] at hin
    cases hin

variable (hn : 0 ≤ n) (ha : a.Valid) (hstart : (start : Int) + size ≤ a.size)
include hn ha hstart

/-- The pointers that have bytes in a part of the copy are those of the source, moved. -/
theorem pointersIn_copyFrom (b : Allocation) (offset : Nat) :
    (b.copyFrom a start offset size).pointersIn (offset + i) (offset + i + n) =
      (a.pointersIn (start + i) (start + i + n)).map fun r => (offset + (r.1 - start), r.2) := by
  have hlength : (slice a.cells start (start + size)).length = size.toNat :=
    length_slice _ (by omega) hstart
  have hleft : ((b.overwrite offset (slice a.cells start (start + size))
      (slice a.defined start (start + size))).relocations.filter fun r =>
        overlaps (offset + i) (offset + i + n) r.1) = [] := by
    refine List.filter_eq_nil_iff.2 fun r hr => ?_
    obtain ⟨-, hclear⟩ := List.mem_filter.1 hr
    simp only [overlaps, hlength, Bool.not_eq_true', Bool.and_eq_false_iff, Bool.and_eq_true,
      decide_eq_false_iff_not, decide_eq_true_eq] at hclear ⊢
    omega
  rw [copyFrom_eq ha b offset (by omega) hstart, pointersIn, List.filter_append, hleft,
    List.nil_append, List.filter_map, within, List.filter_filter, pointersIn]
  refine congrArg _ (List.filter_congr fun r hr => ?_)
  rw [Bool.eq_iff_iff]
  constructor
  · simp only [Function.comp_apply, overlaps, Bool.and_eq_true, decide_eq_true_eq]
    omega
  · intro hin
    have hwithin := within_of_overlaps hle hwhole hr hin
    simp only [Function.comp_apply, overlaps, Bool.and_eq_true, decide_eq_true_eq] at hin ⊢
    omega

/-- A part of the copy shows what the part of the source showed. -/
theorem excerpt_copyFrom (hb : b.Valid) (hoffset : (offset : Int) + size ≤ b.size) :
    (b.copyFrom a start offset size).excerpt (offset + i) n = a.excerpt (start + i) n := by
  have hsize : 0 ≤ size := by omega
  have hlength : (slice a.cells start (start + size)).length = size.toNat :=
    length_slice _ hsize hstart
  have hcopy := copyFrom_eq ha b offset hsize hstart
  have hcells : slice (b.copyFrom a start offset size).cells (offset + i : Nat)
      ((offset + i : Nat) + n) = slice a.cells (start + i : Nat) ((start + i : Nat) + n) := by
    rw [hcopy]
    exact slice_splice_slice hn hle hstart hoffset (by omega)
  have hdefined : slice (b.copyFrom a start offset size).defined (offset + i : Nat)
      ((offset + i : Nat) + n) = slice a.defined (start + i : Nat) ((start + i : Nat) + n) := by
    rw [hcopy]
    exact slice_splice_slice hn hle (by rw [ha.marked]; exact hstart)
      (by rw [hb.marked]; exact hoffset) (by omega)
  rw [excerpt, excerpt, definedIn, definedIn, hcells, hdefined]
  push_cast
  rw [pointersIn_copyFrom hle hwhole hn ha hstart, List.map_map]
  -- a pointer keeps its distance from the start of the part
  refine congrArg _ (List.map_congr_left fun r hr => ?_)
  obtain ⟨hmem, hin⟩ := List.mem_filter.1 hr
  obtain ⟨hlow, -⟩ := within_of_overlaps hle hwhole hmem hin
  simp only [Function.comp_apply, Prod.mk.injEq, and_true]
  omega

end Part

end Allocation

namespace Memory

open Allocation

variable {m m' : Memory}

theorem excerpt_of_find {id offset : Nat} {a : Allocation} {n : Int} (hfind : m.find? id = some a)
    (hle : (offset : Int) + n ≤ a.size) :
    m.excerpt (.known id offset) n 1 = .ok (a.excerpt offset n) := by
  rw [excerpt, checked_of_find hfind, if_neg (by omega), if_neg (by simp)]
  rfl

/-- After a copy, any part of the destination is read with the result, value or error, that the same
part of the source was read with before. -/
theorem reads_copyBytes (hm : m.Regular) {id1 id2 start dest : Nat} {size align : Int}
    (h : copyBytes (.known id1 start) (.known id2 dest) size align m = .ok () m') {i j : Nat}
    (hij : i < j) (hj : j ≤ size)
    (hwhole : ∀ a, m.find? id1 = some a → ∀ r ∈ a.relocations,
      Straddles start r.1 ∨ Straddles (start + size) r.1 →
        overlaps (start + i) (start + j) r.1 = false) :
    m'.readBytes (.known id2 (dest + i)) (j - i) 1 = m.readBytes (.known id1 (start + i)) (j - i) 1 ∧
    ∀ kind, m'.readScalar (.known id2 (dest + i)) (j - i) kind 1
      = m.readScalar (.known id1 (start + i)) (j - i) kind 1 := by
  obtain ⟨id1, start, a, id2, dest, b, hsource, hdest, rfl⟩ := copyBytes_eq_ok (by omega) h
  obtain ⟨⟨⟩, hfrom, hstart⟩ := checked_eq_ok hsource
  obtain ⟨⟨⟩, hto, hoffset⟩ := checked_eq_ok hdest
  have ha := hm.allocs _ (mem_of_lookup hfrom)
  have hb := hm.allocs _ (mem_of_lookup hto)
  have hkept : (b.copyFrom a start dest size).size = b.size :=
    (valid_received ha hb (by omega) hstart hoffset).2
  have hcopied : (m.update id2 fun b => b.copyFrom a start dest size).find? id2
      = some (b.copyFrom a start dest size) := by
    rw [find?_update, hto, Option.map_some, if_pos rfl]
  have hstop : (start : Int) + i + (j - i) = start + j := by omega
  apply reads_eq_of_excerpt
  rw [excerpt_of_find hcopied (by rw [hkept]; push_cast; omega),
    excerpt_of_find hfrom (by push_cast; omega),
    excerpt_copyFrom (by omega) ?_ (by omega) ha hstart hb hoffset]
  rw [hstop]
  exact hwhole a hfrom

/-- A pointer is moved down by less than its size, and the bytes before another one are moved over it
while the pointer at the start of the source is cut. -/
theorem reads_copyBytes_sample :
    let m := (after 64 sample).1
    m.Regular ∧
    (∃ m', copyBytes (.known 1 12) (.known 1 8) 12 4 m = .ok () m' ∧
      m'.readScalar (.known 1 12) 8 .ptr 1 = m.readScalar (.known 1 16) 8 .ptr 1) ∧
    Straddles 4 0 ∧ ∃ m', copyBytes (.known 1 4) (.known 1 12) 12 1 m = .ok () m' ∧
      m'.readBytes (.known 1 20) 4 1 = m.readBytes (.known 1 12) 4 1 := by
  have hstored {a : Allocation} (hfind : (after 64 sample).1.find? 1 = some a) {r : Nat × Pointer}
      (hr : r ∈ a.relocations) : r.1 ∈ [0, 16] := stored_sample hfind ▸ List.mem_map_of_mem hr
  obtain ⟨m1, hdown⟩ : ∃ m', copyBytes (.known 1 12) (.known 1 8) 12 4 (after 64 sample).1 = .ok () m' :=
    exists_of_run' (by decide +kernel)
  obtain ⟨m2, hup⟩ : ∃ m', copyBytes (.known 1 4) (.known 1 12) 12 1 (after 64 sample).1 = .ok () m' :=
    exists_of_run' (by decide +kernel)
  refine ⟨regular_sample, ⟨m1, hdown, ?_⟩, by decide, m2, hup, ?_⟩
  · refine (reads_copyBytes regular_sample hdown (i := 4) (j := 12) (by decide) (by decide)
      fun a hfind r hr => ?_).2 .ptr
    exact (by decide : ∀ x ∈ [0, 16], Straddles 12 x ∨ Straddles (12 + 12) x →
      overlaps (12 + 4) (12 + 12) x = false) _ (hstored hfind hr)
  · refine (reads_copyBytes regular_sample hup (i := 8) (j := 12) (by decide) (by decide)
      fun a hfind r hr => ?_).1
    exact (by decide : ∀ x ∈ [0, 16], Straddles 4 x ∨ Straddles (4 + 12) x →
      overlaps (4 + 8) (4 + 12) x = false) _ (hstored hfind hr)

end Memory
end SymExec

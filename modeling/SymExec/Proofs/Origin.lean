import SymExec.Proofs.Memory

/-!
# Bytes of stored pointers

A pointer is stored on eight bytes. The bytes of an allocation are data, or parts of a pointer that
is whole, or remnants of one that was cut (`Origin`). A range that is overwritten, marked as undefined
or copied cuts the pointers that have some of their bytes in it but not all.

The table of stored pointers holds those that are whole, and remnants are zero
(`Allocation.Follows`): writing, marking, storing pointers and copying keep to this.
-/
namespace SymExec

open Section List

inductive Origin where
  /-- It was not written as a byte of a pointer. -/
  | data
  /-- It is the byte of that index of a pointer, and the other bytes stand around it. -/
  | part (target : Pointer) (index : Nat)
  /-- It was written as a byte of a pointer that has been cut since. -/
  | remnant
  deriving DecidableEq

namespace Origin

/-- The pointer that stands on the bytes from `base` on has one of them in the range. -/
def Touches (start stop base : Nat) : Prop :=
  start < stop ∧ base < stop ∧ start < base + pointerSize

instance (start stop base : Nat) : Decidable (Touches start stop base) :=
  inferInstanceAs (Decidable (_ ∧ _ ∧ _))

/-- The byte at `x` when the bytes of a range change: a pointer that has one there is cut. -/
def cut (start stop x : Nat) : Origin → Origin
  | part target k => if Touches start stop (x - k) then remnant else part target k
  | origin => origin

/-- The byte at `x` in a copy of a range: a pointer that is not all there is cut. -/
def copied (start stop x : Nat) : Origin → Origin
  | part target k =>
    if start + k ≤ x ∧ x - k + pointerSize ≤ stop then part target k else remnant
  | origin => origin

/-- The bytes of an allocation when those from `offset` on are overwritten. -/
def overwritten (row : Nat → Origin) (offset length : Nat) (new : Nat → Origin) (x : Nat) : Origin :=
  if offset ≤ x ∧ x < offset + length then new (x - offset)
  else (row x).cut offset (offset + length) x

variable {start stop offset x k : Nat} {target : Pointer} {origin : Origin}

theorem cut_eq_part : origin.cut start stop x = .part target k ↔
    origin = .part target k ∧ ¬ Touches start stop (x - k) := by
  cases origin with
  | part target' k' =>
    rw [cut]
    split
    · simp only [reduceCtorEq, part.injEq, false_iff, not_and, not_not]
      rintro ⟨-, rfl⟩
      assumption
    · simp only [part.injEq, iff_self_and]
      rintro ⟨-, rfl⟩
      assumption
  | data | remnant => simp [cut]

theorem ne_data_of_cut (h : origin.cut start stop x = .remnant) : origin ≠ .data := by
  rintro rfl
  cases h

theorem cut_empty (x : Nat) (origin : Origin) : origin.cut offset offset x = origin := by
  cases origin with
  | part target k => exact if_neg fun htouches => Nat.lt_irrefl _ htouches.1
  | data => rfl
  | remnant => rfl

theorem copied_eq_part : origin.copied start stop x = .part target k ↔
    origin = .part target k ∧ start + k ≤ x ∧ x - k + pointerSize ≤ stop := by
  cases origin with
  | part target' k' =>
    rw [copied]
    split
    · simp only [part.injEq, iff_self_and]
      rintro ⟨-, rfl⟩
      assumption
    · rename_i hcut
      simp only [reduceCtorEq, part.injEq, false_iff]
      rintro ⟨⟨-, rfl⟩, hinside⟩
      exact hcut hinside
  | data | remnant => simp [copied]

theorem ne_data_of_copied (h : origin.copied start stop x = .remnant) : origin ≠ .data := by
  rintro rfl
  cases h

variable {row new : Nat → Origin} {length : Nat}

theorem overwritten_of_mem (hx : offset ≤ x ∧ x < offset + length) :
    overwritten row offset length new x = new (x - offset) := if_pos hx

theorem overwritten_of_not_mem (hx : ¬ (offset ≤ x ∧ x < offset + length)) :
    overwritten row offset length new x = (row x).cut offset (offset + length) x := if_neg hx

end Origin

namespace Allocation

open Origin

variable {a a' : Allocation} {row row' : Nat → Origin} {start stop offset : Nat}
variable {target : Pointer} {cells : List Cell}

theorem overlaps_iff (hlt : start < stop) (base : Nat) :
    overlaps start stop base = true ↔ Touches start stop base := by
  simp only [overlaps, Touches, Bool.and_eq_true, decide_eq_true_eq]
  omega

/-- The table of stored pointers holds those that are whole, and remnants are zero. -/
structure Follows (a : Allocation) (row : Nat → Origin) : Prop where
  part : ∀ x target k, row x = .part target k ↔
    k < pointerSize ∧ k ≤ x ∧ (x - k, target) ∈ a.relocations
  remnant : ∀ x, row x = .remnant → a.cells[x]? = some (.known 0)

/-- Bytes that were a pointer's are zero, whether it is whole or not. -/
theorem Follows.zero (h : Follows a row) (ha : a.Valid) {x : Nat} (hx : row x ≠ .data) :
    a.cells[x]? = some (.known 0) := by
  cases horigin : row x with
  | data => exact absurd horigin hx
  | remnant => exact h.remnant x horigin
  | part target k =>
    obtain ⟨hk, hle, hmem⟩ := (h.part x target k).1 horigin
    have hzero := (ha.zeros _ hmem k hk).1
    rwa [Nat.sub_add_cancel hle] at hzero

/-- The bytes of a range change: the pointers that have one there go, and others may be stored
inside. -/
theorem Follows.change (h : Follows a row) (ha : a.Valid) (start stop : Nat)
    (placed : List (Nat × Pointer))
    (hplaced : ∀ r ∈ placed, start ≤ r.1 ∧ r.1 + pointerSize ≤ stop)
    (hstored : ∀ r, r ∈ a'.relocations ↔
      (r ∈ a.relocations ∧ ¬ Touches start stop r.1) ∨ r ∈ placed)
    (houtside : ∀ x, ¬ (start ≤ x ∧ x < stop) →
      row' x = (row x).cut start stop x ∧ a'.cells[x]? = a.cells[x]?)
    (hparts : ∀ x, start ≤ x ∧ x < stop → ∀ target k, row' x = .part target k ↔
      k < pointerSize ∧ k ≤ x ∧ (x - k, target) ∈ placed)
    (hremnants : ∀ x, start ≤ x ∧ x < stop → row' x = .remnant → a'.cells[x]? = some (.known 0)) :
    Follows a' row' := by
  constructor
  · intro x target k
    by_cases hx : start ≤ x ∧ x < stop
    · rw [hparts x hx, hstored]
      -- a pointer that was there before and has a byte at `x` is gone
      have hgone (hk : k < pointerSize) (hle : k ≤ x) : Touches start stop (x - k) := by
        unfold Touches
        omega
      constructor
      · rintro ⟨hk, hle, hmem⟩
        exact ⟨hk, hle, .inr hmem⟩
      · rintro ⟨hk, hle, hold | hmem⟩
        · exact absurd (hgone hk hle) hold.2
        · exact ⟨hk, hle, hmem⟩
    · rw [(houtside x hx).1, cut_eq_part, h.part, hstored]
      constructor
      · rintro ⟨⟨hk, hle, hmem⟩, hclear⟩
        exact ⟨hk, hle, .inl ⟨hmem, hclear⟩⟩
      · rintro ⟨hk, hle, hold | hmem⟩
        · exact ⟨⟨hk, hle, hold.1⟩, hold.2⟩
        · have hinside := hplaced _ hmem
          simp only at hinside
          omega
  · intro x hremnant
    by_cases hx : start ≤ x ∧ x < stop
    · exact hremnants x hx hremnant
    · obtain ⟨hrow, hcell⟩ := houtside x hx
      rw [hcell]
      exact h.zero ha (ne_data_of_cut (hrow ▸ hremnant))

/-- Other marks of bytes that are defined, or not, change nothing. -/
theorem Follows.of_eq (h : Follows a row) (hcells : a'.cells = a.cells)
    (hrelocations : a'.relocations = a.relocations) : Follows a' row :=
  ⟨fun x target k => hrelocations ▸ h.part x target k, fun x hx => hcells ▸ h.remnant x hx⟩

theorem mem_relocations_overwrite {defined : List Bool} (hcells : cells ≠ []) (r : Nat × Pointer) :
    r ∈ (a.overwrite offset cells defined).relocations ↔
      r ∈ a.relocations ∧ ¬ Touches offset (offset + cells.length) r.1 := by
  have hpos : 0 < cells.length := length_pos_iff.2 hcells
  have hoverlaps := overlaps_iff (show offset < offset + cells.length by omega) r.1
  simp only [Allocation.overwrite, clear, mem_filter, Bool.not_eq_true', ← hoverlaps,
    Int.natCast_add, Bool.not_eq_true]

theorem cells_overwrite (defined : List Bool) (hle : offset + cells.length ≤ a.size) (x : Nat) :
    (a.overwrite offset cells defined).cells[x]? =
      if offset ≤ x ∧ x < offset + cells.length then cells[x - offset]? else a.cells[x]? :=
  getElem?_splice rfl hle x

theorem relocations_relocate (hapart : ∀ r ∈ a.relocations, Apart r.1 offset) (target : Pointer) :
    (a.relocate offset target).relocations = a.relocations ++ [(offset, target)] := by
  refine congrArg (· ++ [(offset, target)]) (filter_eq_self.2 fun r hr => ?_)
  have := hapart r hr
  unfold Apart pointerSize at this
  rw [bne_iff_ne]
  omega

theorem mem_relocate (hapart : ∀ r ∈ a.relocations, Apart r.1 offset) (target : Pointer)
    (r : Nat × Pointer) :
    r ∈ (a.relocate offset target).relocations ↔ r ∈ a.relocations ∨ r = (offset, target) := by
  rw [relocations_relocate hapart, mem_append, mem_singleton]

theorem relocations_foldl {moved : List (Nat × Pointer)} (place : Nat → Nat)
    (hapart : ∀ r ∈ moved, ∀ r' ∈ a.relocations, Apart r'.1 (place r.1))
    (hmoved : moved.Pairwise fun r r' => Apart (place r.1) (place r'.1)) :
    (moved.foldl (fun b (o, target) => b.relocate (place o) target) a).relocations
      = a.relocations ++ moved.map fun x => (place x.1, x.2) := by
  induction moved generalizing a with
  | nil => simp
  | cons x moved ih =>
    rw [pairwise_cons] at hmoved
    have hstored := relocations_relocate (hapart x (by simp)) x.2
    rw [foldl_cons, ih (fun y hy z hz => ?_) hmoved.2, hstored, append_assoc]
    · rfl
    · rw [hstored, mem_append, mem_singleton] at hz
      rcases hz with hz | rfl
      · exact hapart y (by simp [hy]) z hz
      · exact hmoved.1 y hy

theorem mem_foldl_relocate {moved : List (Nat × Pointer)} (place : Nat → Nat)
    (hapart : ∀ r ∈ moved, ∀ r' ∈ a.relocations, Apart r'.1 (place r.1))
    (hmoved : moved.Pairwise fun r r' => Apart (place r.1) (place r'.1)) (r : Nat × Pointer) :
    r ∈ (moved.foldl (fun b (o, target) => b.relocate (place o) target) a).relocations ↔
      r ∈ a.relocations ∨ r ∈ moved.map fun x => (place x.1, x.2) := by
  rw [relocations_foldl place hapart hmoved, mem_append]

theorem cells_foldl (moved : List (Nat × Pointer)) (place : Nat → Nat) (a : Allocation) :
    (moved.foldl (fun b (o, target) => b.relocate (place o) target) a).cells = a.cells := by
  rw [foldl_relocate_eq]

section

variable (h : Follows a row)
include h

theorem Follows.write (ha : a.Valid) (hcells : cells ≠ []) (hle : offset + cells.length ≤ a.size) :
    Follows (a.write offset cells) (overwritten row offset cells.length fun _ => .data) := by
  rw [write_eq_overwrite]
  refine h.change ha offset (offset + cells.length) [] (by simp) (fun r => ?_) (fun x hx => ?_)
    (fun x hx target k => ?_) fun x hx => ?_
  · rw [mem_relocations_overwrite hcells]
    simp
  · exact ⟨overwritten_of_not_mem hx, (cells_overwrite _ hle x).trans (if_neg hx)⟩
  · rw [overwritten_of_mem hx]
    simp
  · rw [overwritten_of_mem hx]
    simp

/-- Bytes become undefined; pointers that have one of them are cut, and nothing else changes. -/
theorem Follows.erase (ha : a.Valid) {size : Int} (hpos : 0 < size) :
    Follows (a.mark offset size false) fun x => (row x).cut offset (offset + size.toNat) x := by
  have hstop : ((offset + size.toNat : Nat) : Int) = offset + size := by omega
  refine h.change ha offset (offset + size.toNat) [] (by simp) (fun r => ?_)
    (fun x _ => ⟨rfl, rfl⟩) (fun x hx target k => ?_) fun x hx hremnant => ?_
  · have hoverlaps := overlaps_iff (show offset < offset + size.toNat by omega) r.1
    rw [hstop] at hoverlaps
    simp [mark, clear, mem_filter, ← hoverlaps]
  · rw [cut_eq_part, h.part]
    simp only [not_mem_nil, and_false, iff_false, not_and, not_not, and_imp]
    intro hk hle _
    unfold Touches
    omega
  · exact h.zero ha (ne_data_of_cut hremnant)

theorem Follows.store (ha : a.Valid) (hle : offset + pointerSize ≤ a.size) (target : Pointer) :
    Follows ((a.write offset (replicate pointerSize (.known 0))).relocate offset target)
      (overwritten row offset pointerSize (.part target)) := by
  have hlength : (replicate pointerSize (Cell.known 0)).length = pointerSize :=
    length_replicate
  have hle' : offset + (replicate pointerSize (Cell.known 0)).length ≤ a.size := by
    rwa [hlength]
  rw [write_eq_overwrite]
  refine h.change ha offset (offset + pointerSize) [(offset, target)] (by simp) (fun r => ?_)
    (fun x hx => ?_) (fun x hx target' k => ?_) fun x hx => ?_
  · rw [mem_relocate fun r hr => apart_overwrite hr (Nat.le_refl _) (by rw [hlength]),
      mem_relocations_overwrite (by simp [pointerSize]), hlength, mem_singleton]
  · refine ⟨overwritten_of_not_mem hx, (cells_overwrite (replicate pointerSize true) hle' x).trans ?_⟩
    rw [hlength, if_neg hx]
  · rw [overwritten_of_mem hx]
    simp only [part.injEq, mem_singleton, Prod.mk.injEq]
    constructor
    · rintro ⟨rfl, rfl⟩
      exact ⟨by omega, by omega, by omega, rfl⟩
    · rintro ⟨hk, hle, hbase, rfl⟩
      exact ⟨rfl, by omega⟩
  · rw [overwritten_of_mem hx]
    simp

/-! ## Reading -/

theorem relocationsIn_eq_nil {size : Int} (hnone : a.relocationsIn offset (offset + size) = [])
    {k : Nat} (hk : (k : Int) < size) (target : Pointer) (index : Nat) :
    row (offset + k) ≠ .part target index := by
  intro hpart
  obtain ⟨hindex, hle, hmem⟩ := (h.part _ _ _).1 hpart
  have hfound : offset + k - index ∈ a.relocationsIn offset (offset + size) := by
    refine mem_filter.2 ⟨mem_map.2 ⟨_, hmem, rfl⟩, ?_⟩
    simp only [overlaps, Bool.and_eq_true, decide_eq_true_eq]
    omega
  rw [hnone] at hfound
  cases hfound

theorem part_of_lookup (hlookup : a.relocations.lookup offset = some target) {k : Nat}
    (hk : k < pointerSize) : row (offset + k) = .part target k := by
  refine (h.part _ _ _).2 ⟨hk, Nat.le_add_left _ _, ?_⟩
  rw [Nat.add_sub_cancel]
  exact Memory.mem_of_lookup hlookup

theorem lookup_of_part (hpart : row offset = .part target 0) :
    a.relocations.lookup offset = some target := by
  obtain ⟨-, -, hmem⟩ := (h.part _ _ _).1 hpart
  cases hlookup : a.relocations.lookup offset with
  | some target' =>
    have hpart' := part_of_lookup h hlookup (k := 0) (by decide)
    rw [Nat.add_zero, hpart] at hpart'
    cases hpart'
    rfl
  | none =>
    have hmiss := lookup_eq_none_iff.1 hlookup _ hmem
    simp at hmiss

theorem eq_of_overlaps {target' : Pointer} {o : Nat} (hmem : (offset, target) ∈ a.relocations)
    (hmem' : (o, target') ∈ a.relocations)
    (hoverlaps : overlaps offset (offset + pointerSize) o) : o = offset := by
  simp only [overlaps, Bool.and_eq_true, decide_eq_true_eq] at hoverlaps
  have hpart : row (max o offset) = .part target (max o offset - offset) :=
    (h.part _ _ _).2 ⟨by omega, by omega, by rwa [show max o offset - (max o offset - offset) = offset by omega]⟩
  have hpart' : row (max o offset) = .part target' (max o offset - o) :=
    (h.part _ _ _).2 ⟨by omega, by omega, by rwa [show max o offset - (max o offset - o) = o by omega]⟩
  rw [hpart] at hpart'
  injection hpart' with _ hindex
  omega

/-- The only pointer that has bytes where a whole one stands is that one. -/
theorem relocationsIn_of_part (ha : a.Valid) (hpart : row offset = .part target 0) :
    a.relocationsIn offset (offset + pointerSize) = [offset] := by
  obtain ⟨-, -, hmem⟩ := (h.part _ _ _).1 hpart
  have hin : offset ∈ a.relocations.map Prod.fst := mem_map.2 ⟨_, hmem, rfl⟩
  have hnodup : (a.relocations.map Prod.fst).Nodup := by
    refine pairwise_map.2 (ha.apart.imp fun {r r'} hapart => ?_)
    unfold Apart pointerSize at hapart
    omega
  have honly : ∀ o ∈ a.relocations.map Prod.fst,
      overlaps offset (offset + pointerSize) o = (o == offset) := by
    intro o ho
    obtain ⟨r, hr, rfl⟩ := mem_map.1 ho
    rw [Bool.eq_iff_iff, beq_iff_eq]
    constructor
    · exact eq_of_overlaps h hmem hr
    · intro hsame
      simp only [overlaps, Bool.and_eq_true, decide_eq_true_eq]
      unfold pointerSize
      omega
  rw [relocationsIn, filter_congr honly, filter_beq, count_eq_one_of_mem hnodup hin]
  rfl

end

end Allocation

/-! ## Copying -/

namespace Memory

open Allocation Origin

variable {a b : Allocation} {row row' : Nat → Origin} {start offset : Nat}

/-- Bytes are copied, within an allocation or from another one. -/
theorem follows_received (ha : a.Valid) (hrow : Follows a row) (hb : b.Valid) (hrow' : Follows b row')
    {size : Int} (hpos : 0 < size) (hstart : (start : Int) + size ≤ a.size)
    (hoffset : (offset : Int) + size ≤ b.size) :
    Follows
      (received (slice a.cells start (start + size))
        (slice a.defined start (start + size)) (a.within start size) start offset size b)
      (overwritten row' offset size.toNat fun k =>
        (row (start + k)).copied start (start + size.toNat) (start + k)) := by
  have hlength : (slice a.cells start (start + size)).length = size.toNat :=
    length_slice _ hpos.le hstart
  have hne : slice a.cells start (start + size) ≠ [] := by
    rw [← length_pos_iff]
    omega
  have hcell {x : Nat} (hx : offset ≤ x ∧ x < offset + size.toNat) :
      (slice a.cells start (start + size))[x - offset]? = a.cells[start + (x - offset)]? :=
    getElem?_slice hpos.le hstart (by omega)
  rw [received_eq hpos.le hstart]
  refine hrow'.change hb offset (offset + size.toNat)
    ((a.within start size).map fun r => (offset + (r.1 - start), r.2)) ?_ (fun r => ?_)
    (fun x hx => ?_) (fun x hx target k => ?_) fun x hx hremnant => ?_
  · intro r hr
    obtain ⟨x, hx, rfl⟩ := mem_map.1 hr
    obtain ⟨-, hlow, hhigh⟩ := mem_within.1 hx
    simp only
    omega
  · rw [mem_foldl_relocate (fun o => offset + (o - start)) (fun x hx y hy => ?_)
      (ha.apart_within start offset size), mem_relocations_overwrite hne, hlength]
    obtain ⟨-, hlow, hhigh⟩ := mem_within.1 hx
    exact apart_overwrite hy (by omega) (by omega)
  · refine ⟨overwritten_of_not_mem hx, ?_⟩
    rw [cells_foldl _ fun o => offset + (o - start), cells_overwrite _ (by omega), hlength, if_neg hx]
  · rw [overwritten_of_mem hx, copied_eq_part, hrow.part]
    simp only [mem_map, mem_within, Prod.mk.injEq]
    constructor
    · rintro ⟨⟨hk, hle, hmem⟩, hlow, hhigh⟩
      refine ⟨hk, by omega, _, ⟨hmem, ?_⟩, ?_, rfl⟩
      · simp only
        omega
      · simp only
        omega
    · rintro ⟨hk, hle, r, ⟨hmem, hlow, hhigh⟩, hbase, rfl⟩
      have hsame : start + (x - offset) - k = r.1 := by omega
      exact ⟨⟨hk, by omega, by rwa [hsame]⟩, by omega, by omega⟩
  · rw [cells_foldl _ fun o => offset + (o - start), cells_overwrite _ (by omega), hlength,
      if_pos hx, hcell hx]
    rw [overwritten_of_mem hx] at hremnant
    exact hrow.zero ha (ne_data_of_copied hremnant)

end Memory
end SymExec

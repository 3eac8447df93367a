import SymExec.Proofs.Lengths
import Mathlib.Order.Bounds.Basic
import Mathlib.Algebra.Order.Ring.Int
import Mathlib.Data.Int.Bitwise
import Mathlib.Tactic.Ring

/-!
# Laws of layout

Alignments are powers of two, and sizes are multiples of them (`Ty.layout_lawful`). Each field of an
aggregate stands at the least multiple of its alignment that the field before it leaves free, and
behind the last field there is less than one alignment (`Ty.exists_laid`, `Ty.Laid.arranged`).
-/
namespace SymExec

open Run

namespace Ty

variable {align : Nat} {whole : Layout}

/-! ## Rounding up -/

theorem isLeast_alignUp (n : Int) (halign : 0 < align) :
    IsLeast {x : Int | n ≤ x ∧ (align : Int) ∣ x} (alignUp n align) := by
  have hdivision := Int.mul_ediv_add_emod (n + align - 1) align
  have hrest := Int.emod_lt_of_pos (n + align - 1) (show (0 : Int) < align by omega)
  unfold alignUp
  refine ⟨⟨?_, Int.dvd_mul_left _ _⟩, ?_⟩
  · rw [Int.mul_comm]
    omega
  · rintro x ⟨hx, c, rfl⟩
    have hlt : (n + align - 1) / align < c + 1 := by
      refine Int.ediv_lt_of_lt_mul (by omega) ?_
      rw [Int.add_mul, Int.mul_comm c]
      omega
    rw [Int.mul_comm (align : Int)]
    exact Int.mul_le_mul_of_nonneg_right (by omega) (by omega)

theorem alignUp_lt (n : Int) (halign : 0 < align) : alignUp n align < n + align := by
  have hdivision := Int.mul_ediv_add_emod (n + align - 1) align
  have hrest := Int.emod_nonneg (n + align - 1) (show (align : Int) ≠ 0 by omega)
  unfold alignUp
  rw [Int.mul_comm]
  omega

theorem le_alignUp (n : Int) (halign : 0 < align) : n ≤ alignUp n align :=
  (isLeast_alignUp n halign).1.1

/-- The low bits of a number are cut off by a mask. -/
theorem land_neg_two_pow (n : Int) (k : Nat) : Int.land n (-2 ^ k) = n / 2 ^ k * 2 ^ k := by
  induction k generalizing n with
  | zero =>
    rw [pow_zero, Int.ediv_one, Int.mul_one]
    cases n with
    | ofNat m => exact congrArg Int.ofNat (by simp [Nat.ldiff])
    | negSucc m => exact congrArg Int.negSucc (Nat.or_zero m)
  | succ k ih =>
    have hmask : (-2 ^ (k + 1) : Int) = Int.bit false (-2 ^ k) := by
      rw [Int.bit_val, pow_succ', cond_false]
      ring
    rw [hmask]
    nth_rewrite 1 [← Int.bit_decomp n]
    rw [Int.land_bit, Bool.and_false, ih, Int.bit_val, Int.div2_val, Int.ediv_ediv_of_nonneg (by decide),
      pow_succ', cond_false]
    ring

/-- Rounding up to a power of two clears the low bits. -/
theorem alignUp_two_pow (n : Int) (k : Nat) :
    alignUp n (2 ^ k) = Int.land (n + (2 ^ k : Nat) - 1) (-2 ^ k) := by
  rw [land_neg_two_pow, alignUp, Nat.cast_pow, Nat.cast_ofNat]

/-- Of two powers of two each divides the greater. -/
theorem dvd_max {a b : Nat} (ha : ∃ k : Nat, a = 2 ^ k) (hb : ∃ k : Nat, b = 2 ^ k) :
    (∃ k : Nat, max a b = 2 ^ k) ∧ a ∣ max a b ∧ b ∣ max a b := by
  obtain ⟨i, rfl⟩ := ha
  obtain ⟨j, rfl⟩ := hb
  rcases Nat.le_total i j with hle | hle
  · have hpow : 2 ^ i ≤ 2 ^ j := Nat.pow_le_pow_right (by decide) hle
    rw [Nat.max_eq_right hpow]
    exact ⟨⟨j, rfl⟩, Nat.pow_dvd_pow 2 hle, Nat.dvd_refl _⟩
  · have hpow : 2 ^ j ≤ 2 ^ i := Nat.pow_le_pow_right (by decide) hle
    rw [Nat.max_eq_left hpow]
    exact ⟨⟨i, rfl⟩, Nat.dvd_refl _, Nat.pow_dvd_pow 2 hle⟩

/-! ## Layouts -/

/-- The alignment is a power of two, and the size, if there is one, is a multiple of it. -/
structure Layout.Lawful (l : Layout) : Prop where
  power : ∃ k : Nat, l.align = 2 ^ k
  multiple : ∀ n ∈ l.size, 0 ≤ n ∧ (l.align : Int) ∣ n

theorem Layout.Lawful.align_pos {l : Layout} (h : l.Lawful) : 0 < l.align := by
  obtain ⟨k, hk⟩ := h.power
  rw [hk]
  exact Nat.pow_pos (by decide)

structure Part where
  layout : Layout
  offset : Int

/-- Parts that are laid out from `stop` on, where the parts so far have the alignment `align`. -/
inductive Laid : (stop : Int) → (align : Nat) → List Part → Layout → Prop where
  | nil {stop : Int} {align : Nat} : Laid stop align [] ⟨some (alignUp stop align), align⟩
  | unsized {stop : Int} {align : Nat} {l : Layout} (hsize : l.size = none) :
    Laid stop align [⟨l, alignUp stop l.align⟩] ⟨none, max align l.align⟩
  | cons {stop : Int} {align : Nat} {l : Layout} {n : Int} {parts : List Part} {whole : Layout}
    (hsize : l.size = some n)
    (rest : Laid (alignUp stop l.align + n) (max align l.align) parts whole) :
    Laid stop align (⟨l, alignUp stop l.align⟩ :: parts) whole

def Makes (ts : List Ty) (parts : List Part) : Prop :=
  List.Forall₂ (fun t p => t.layout = .ok p.layout) ts parts

theorem place_eq_ok {ts : List Ty} {stop : Int} {whole : List Int × Layout}
    (h : place ts stop align = .ok whole) :
    ∃ parts, Makes ts parts ∧ whole.1 = parts.map Part.offset ∧ Laid stop align parts whole.2 := by
  induction ts generalizing stop align whole with
  | nil =>
    unfold place at h
    cases h
    exact ⟨[], .nil, rfl, .nil⟩
  | cons t ts ih =>
    unfold place at h
    obtain ⟨l, hl, h⟩ := bind_iff.1 h
    dsimp only at h
    split at h
    · rename_i hsize
      split at h
      · rename_i hempty
        cases h
        rw [List.isEmpty_iff.1 hempty]
        exact ⟨[⟨l, alignUp stop l.align⟩], .cons hl .nil, rfl, .unsized hsize⟩
      · cases h
    · rename_i n hsize
      obtain ⟨rest, hrest, ⟨⟩⟩ := bind_iff.1 h
      obtain ⟨parts, hmakes, hoffsets, hlaid⟩ := ih hrest
      exact ⟨⟨l, alignUp stop l.align⟩ :: parts, .cons hl hmakes, by simp [hoffsets], .cons hsize hlaid⟩

namespace Laid

variable {stop : Int} {align : Nat} {parts : List Part} {whole : Layout}

theorem dvd_align (h : Laid stop align parts whole) (hparts : ∀ p ∈ parts, p.layout.Lawful)
    (halign : ∃ k : Nat, align = 2 ^ k) :
    (∃ k : Nat, whole.align = 2 ^ k) ∧ align ∣ whole.align ∧
      ∀ p ∈ parts, p.layout.align ∣ whole.align := by
  induction h with
  | nil => exact ⟨halign, Nat.dvd_refl _, by simp⟩
  | @unsized stop align l hsize =>
    obtain ⟨hpower, hleft, hright⟩ := dvd_max halign (hparts ⟨l, alignUp stop l.align⟩ (by simp)).power
    exact ⟨hpower, hleft, by simpa using hright⟩
  | @cons stop align l n parts whole hsize rest ih =>
    obtain ⟨hpower, hleft, hright⟩ := dvd_max halign (hparts ⟨l, alignUp stop l.align⟩ (by simp)).power
    obtain ⟨hwhole, hdvd, hrest⟩ := ih (fun p hp => hparts p (by simp [hp])) hpower
    refine ⟨hwhole, hleft.trans hdvd, fun p hp => ?_⟩
    rcases List.mem_cons.1 hp with rfl | hp
    · exact hright.trans hdvd
    · exact hrest p hp

theorem le_offset (h : Laid stop align parts whole) (hparts : ∀ p ∈ parts, p.layout.Lawful) :
    ∀ p ∈ parts, stop ≤ p.offset ∧ (p.layout.align : Int) ∣ p.offset := by
  induction h with
  | nil => simp
  | @unsized stop align l hsize =>
    have hl : l.Lawful := hparts ⟨l, alignUp stop l.align⟩ (by simp)
    simpa using (isLeast_alignUp stop hl.align_pos).1
  | @cons stop align l n parts whole hsize rest ih =>
    have hl : l.Lawful := hparts ⟨l, alignUp stop l.align⟩ (by simp)
    obtain ⟨hle, hdvd⟩ := (isLeast_alignUp stop hl.align_pos).1
    have hn := (hl.multiple n hsize).1
    intro p hp
    rcases List.mem_cons.1 hp with rfl | hp
    · exact ⟨hle, hdvd⟩
    · obtain ⟨hlow, hmultiple⟩ := ih (fun p hp => hparts p (by simp [hp])) p hp
      exact ⟨by omega, hmultiple⟩

/-- The parts of a sized aggregate are sized and end where it does or before. -/
theorem le_size (h : Laid stop align parts whole) (hparts : ∀ p ∈ parts, p.layout.Lawful)
    (halign : 0 < align) {size : Int} (hwhole : whole.size = some size) :
    stop ≤ size ∧ (whole.align : Int) ∣ size ∧
      ∀ p ∈ parts, ∃ n, p.layout.size = some n ∧ p.offset + n ≤ size := by
  induction h with
  | @nil stop align =>
    cases hwhole
    obtain ⟨hle, hdvd⟩ := (isLeast_alignUp stop halign).1
    exact ⟨hle, hdvd, by simp⟩
  | unsized hsize => cases hwhole
  | @cons stop align l n parts whole hsize rest ih =>
    have hl : l.Lawful := hparts ⟨l, alignUp stop l.align⟩ (by simp)
    have hle := le_alignUp stop hl.align_pos
    have hn := (hl.multiple n hsize).1
    obtain ⟨hstop, hdvd, hrest⟩ := ih (fun p hp => hparts p (by simp [hp])) (by omega) hwhole
    refine ⟨by omega, hdvd, fun p hp => ?_⟩
    rcases List.mem_cons.1 hp with rfl | hp
    · exact ⟨n, hsize, hstop⟩
    · exact hrest p hp

theorem head (h : Laid stop align parts whole) (hparts : ∀ p ∈ parts, p.layout.Lawful) :
    ∀ p ∈ parts.head?, IsLeast {x : Int | stop ≤ x ∧ (p.layout.align : Int) ∣ x} p.offset := by
  cases h with
  | nil => simp
  | unsized hsize | cons hsize rest =>
    rintro p ⟨⟩
    exact isLeast_alignUp stop (hparts _ (by simp)).align_pos

end Laid

/-- The second part stands at the least offset that its alignment and the first part allow. -/
def Part.Precedes (p q : Part) : Prop :=
  ∃ n, p.layout.size = some n ∧
    IsLeast {x : Int | p.offset + n ≤ x ∧ (q.layout.align : Int) ∣ x} q.offset

namespace Laid

variable {stop : Int} {align : Nat} {parts : List Part} {whole : Layout}

theorem precedes (h : Laid stop align parts whole) (hparts : ∀ p ∈ parts, p.layout.Lawful) :
    parts.IsChain Part.Precedes := by
  induction h with
  | nil => exact .nil
  | unsized hsize => exact .singleton _
  | @cons stop align l n parts whole hsize rest ih =>
    have hrest : ∀ p ∈ parts, p.layout.Lawful := fun p hp => hparts p (by simp [hp])
    cases parts with
    | nil => exact .singleton _
    | cons q parts =>
      exact List.isChain_cons_cons.2 ⟨⟨n, hsize, rest.head hrest q rfl⟩, ih hrest⟩

theorem last (h : Laid stop align parts whole) :
    (parts = [] → whole.size = some (alignUp stop whole.align)) ∧
    ∀ p ∈ parts.getLast?, ∀ n, p.layout.size = some n →
      whole.size = some (alignUp (p.offset + n) whole.align) := by
  induction h with
  | nil => simp
  | unsized hsize =>
    refine ⟨by simp, fun p hp n hn => ?_⟩
    rw [List.getLast?_singleton, Option.mem_some_iff] at hp
    subst hp
    cases hsize.symm.trans hn
  | @cons stop align l n parts whole hsize rest ih =>
    refine ⟨by simp, fun p hp k hk => ?_⟩
    cases parts with
    | nil =>
      cases hp
      cases hsize.symm.trans hk
      exact ih.1 rfl
    | cons q parts =>
      rw [List.getLast?_cons_cons] at hp
      exact ih.2 p hp k hk

end Laid

/-! ## Laws -/

theorem Laid.lawful {parts : List Part} (h : Laid 0 1 parts whole)
    (hparts : ∀ p ∈ parts, p.layout.Lawful) : whole.Lawful := by
  refine ⟨(h.dvd_align hparts ⟨0, rfl⟩).1, fun n hn => ?_⟩
  obtain ⟨hstop, hdvd, -⟩ := h.le_size hparts Nat.one_pos hn
  exact ⟨hstop, hdvd⟩

theorem lawful_pointer (l : Layout) : l.pointer.Lawful := by
  have hpower : ∃ k : Nat, pointerSize = 2 ^ k := ⟨3, rfl⟩
  unfold Layout.pointer
  split
  · exact ⟨hpower, by simp⟩
  · exact ⟨hpower, by simp⟩

mutual

theorem layout_lawful : ∀ {t : Ty} {l : Layout}, t.isNonNegative = true → t.layout = .ok l → l.Lawful
  | int w _ _, _, _, h => by
    unfold layout at h
    cases h
    cases w
    · exact ⟨⟨0, rfl⟩, by simp⟩
    · exact ⟨⟨1, rfl⟩, by simp⟩
    · exact ⟨⟨2, rfl⟩, by simp⟩
    · exact ⟨⟨3, rfl⟩, by simp⟩
    · exact ⟨⟨4, rfl⟩, by simp⟩
  | bool, _, _, h | str, _, _, h => by
    unfold layout at h
    cases h
    exact ⟨⟨0, rfl⟩, by simp⟩
  | char, _, _, h | f32, _, _, h => by
    unfold layout at h
    cases h
    exact ⟨⟨2, rfl⟩, by simp⟩
  | f64, _, _, h | fnPtr _, _, _, h => by
    unfold layout at h
    cases h
    exact ⟨⟨3, rfl⟩, by simp⟩
  | rawPtr inner _, _, _, h | ref inner _, _, _, h => by
    unfold layout at h
    obtain ⟨l, -, ⟨⟩⟩ := bind_iff.1 h
    exact lawful_pointer l
  | slice elem, _, ht, h => by
    unfold layout at h
    unfold isNonNegative at ht
    obtain ⟨l, hl, ⟨⟩⟩ := bind_iff.1 h
    exact ⟨(layout_lawful ht hl).power, by simp⟩
  | array elem length, _, ht, h => by
    unfold layout at h
    unfold isNonNegative at ht
    rw [Bool.and_eq_true, decide_eq_true_eq] at ht
    obtain ⟨l, hl, h⟩ := bind_iff.1 h
    have hinner := layout_lawful ht.2 hl
    split at h
    · rename_i size hsize
      cases h
      obtain ⟨hnonneg, hdvd⟩ := hinner.multiple size hsize
      refine ⟨hinner.power, ?_⟩
      rintro n ⟨⟩
      exact ⟨Int.mul_nonneg hnonneg ht.1, Int.dvd_mul_of_dvd_left hdvd⟩
    · cases h
  | tuple fields, _, ht, h | struct _ fields _, _, ht, h => by
    unfold layout at h
    unfold isNonNegative at ht
    obtain ⟨whole, hwhole, ⟨⟩⟩ := bind_iff.1 h
    obtain ⟨parts, hmakes, -, hlaid⟩ := place_eq_ok hwhole
    exact hlaid.lawful (parts_lawful ht hmakes)

theorem parts_lawful : ∀ {ts : List Ty} {parts : List Part}, allNonNegative ts = true →
    Makes ts parts → ∀ p ∈ parts, p.layout.Lawful
  | [], _, _, .nil, p, hp => by cases hp
  | t :: ts, _, hts, .cons (b := q) hq hmakes, p, hp => by
    unfold allNonNegative at hts
    rw [Bool.and_eq_true] at hts
    rcases List.mem_cons.1 hp with rfl | hp
    · exact layout_lawful hts.1 hq
    · exact parts_lawful hts.2 hmakes p hp

end

structure Arranged (parts : List Part) (whole : Layout) : Prop where
  first : ∀ p ∈ parts.head?, p.offset = 0
  aligned : ∀ p ∈ parts, (p.layout.align : Int) ∣ p.offset ∧ p.layout.align ∣ whole.align
  /-- No part reaches into the next one, which stands at the least offset that is allowed. -/
  next : parts.IsChain Part.Precedes
  last : ∀ p ∈ parts.getLast?, ∀ n, p.layout.size = some n →
    ∃ size, whole.size = some size ∧ p.offset + n ≤ size ∧ size < p.offset + n + whole.align

theorem Laid.arranged {parts : List Part} (h : Laid 0 1 parts whole)
    (hparts : ∀ p ∈ parts, p.layout.Lawful) : Arranged parts whole := by
  have halign := (h.lawful hparts).align_pos
  refine ⟨fun p hp => ?_, fun p hp => ?_, h.precedes hparts, fun p hp n hn => ?_⟩
  · obtain ⟨⟨hle, -⟩, hleast⟩ := h.head hparts p hp
    exact Int.le_antisymm (hleast ⟨Int.le_refl 0, Int.dvd_zero _⟩) hle
  · exact ⟨(h.le_offset hparts p hp).2, (h.dvd_align hparts ⟨0, rfl⟩).2.2 p hp⟩
  · exact ⟨_, h.last.2 p hp n hn, le_alignUp _ halign, alignUp_lt _ halign⟩

/-- The layout of an aggregate is that of its parts. -/
theorem exists_laid {t : Ty} {ts : List Ty} (ht : t.isNonNegative) (hts : t.fields? = some ts)
    (hwhole : t.layout = .ok whole) :
    ∃ parts, (∀ p ∈ parts, p.layout.Lawful) ∧ Makes ts parts ∧
      offsets ts = .ok (parts.map Part.offset) ∧ Laid 0 1 parts whole := by
  cases t with
  | tuple fields | struct name fields dropGlue =>
    cases hts
    unfold layout at hwhole
    unfold isNonNegative at ht
    obtain ⟨x, hx, ⟨⟩⟩ := bind_iff.1 hwhole
    obtain ⟨parts, hmakes, hoffsets, hlaid⟩ := place_eq_ok hx
    refine ⟨parts, parts_lawful ht hmakes, hmakes, ?_, hlaid⟩
    rw [offsets, hx, ← hoffsets]
    rfl
  | _ => cases hts

end Ty
end SymExec

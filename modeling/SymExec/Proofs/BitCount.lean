import SymExec.Operator
import Mathlib.Data.BitVec

/-!
# Bit counts

The bits of a symbolic word are counted by a loop over its places, those of a known word by arithmetic
on its number. Both count the same (`BitCount.toNat_eval`). The loops are those of the standard library
(`eval_ones`, `eval_leadingZeros`, `eval_trailingZeros`), which says where the counted bits are
(`BitCount.counts_bitCount`).
-/
namespace SymExec

open List BitVec

variable {w : Nat}

namespace BitCount

/-! ## Loops -/

theorem eval_ones (x : BitVec w) : ones.eval x = x.cpop := by
  have hbit (i : Nat) : (x.extractLsb' i 1).setWidth w = BitVec.ofNat w (x.getLsbD i).toNat := by
    have hword : x.extractLsb' i 1 = ofBool (x.getLsbD i) := by
      ext j hj
      obtain rfl : j = 0 := by omega
      simp
    rw [hword]
    exact BitVec.eq_of_toNat_eq (by simp)
  have hloop (n : Nat) : (range n).foldl (fun k i => k + (x.extractLsb' i 1).setWidth w) 0#w
      = BitVec.ofNat w (x.cpopNatRec n 0) := by
    induction n with
    | zero => rfl
    | succ n ih =>
      rw [range_succ, foldl_append, ih, cpopNatRec_succ, cpopNatRec_add,
        ofNat_add, foldl_cons, foldl_nil, hbit]
  exact hloop w

theorem eval_leadingZeros (x : BitVec w) : leadingZeros.eval x = x.clz := by
  have hloop (n : Nat) : (range (n + 1)).foldl
      (fun k i => if x.getLsbD i then BitVec.ofNat w (w - 1 - i) else k) (.ofNat w w)
      = x.clzAuxRec n := by
    induction n with
    | zero => simp [BitVec.clzAuxRec_zero]
    | succ n ih =>
      rw [range_succ, foldl_append, ih, clzAuxRec_succ]
      rfl
  cases w with
  | zero => exact Subsingleton.elim _ _
  | succ w => exact hloop w

/-- The loop for trailing zeros goes down where that for leading zeros goes up. -/
theorem eval_trailingZeros (x : BitVec w) : trailingZeros.eval x = x.reverse.clz := by
  rw [← eval_leadingZeros, eval, eval, ← foldl_reverse, range_eq_range',
    reverse_range', foldl_map, ← range_eq_range']
  refine foldl_ext _ _ _ fun n i hi => ?_
  have hlt := mem_range.1 hi
  rw [getLsbD_reverse, getMsbD_eq_getLsbD, Nat.zero_add]
  simp [hlt]

end BitCount

/-! ## Arithmetic -/

namespace Operator

theorem count_toDigits (n : Nat) (b : Bool) :
    (Nat.toDigits 2 (n * 2 + b.toNat)).count '1' = b.toNat + (Nat.toDigits 2 n).count '1' := by
  have hlast (b : Bool) : [b.toNat.digitChar].count '1' = b.toNat := by cases b <;> rfl
  have hb := b.toNat_lt
  by_cases hn : n = 0
  · subst hn
    rw [Nat.toDigits_of_lt_base (by omega), Nat.toDigits_zero, Nat.zero_mul, Nat.zero_add, hlast]
    rfl
  · rw [Nat.toDigits_of_base_le (by decide) (by omega), count_append, Nat.add_comm b.toNat,
      show (n * 2 + b.toNat) / 2 = n by omega, show (n * 2 + b.toNat) % 2 = b.toNat by omega, hlast]

theorem toNat_cpop (x : BitVec w) : x.cpop.toNat = (Nat.toDigits 2 x.toNat).count '1' := by
  induction w with
  | zero =>
    rw [Subsingleton.elim x 0#0]
    rfl
  | succ w ih =>
    -- the lowest bit apart, as the last digit is
    have hconcat : x = (BitVec.ofNat w (x.toNat / 2)).concat (x.getLsbD 0) := by
      apply eq_of_toNat_eq
      have hlt := x.isLt
      rw [toNat_concat, toNat_ofNat, Nat.mod_eq_of_lt (by omega), getLsbD,
        Nat.testBit_zero]
      rcases Nat.mod_two_eq_zero_or_one x.toNat with h | h <;> simp [h] <;> omega
    rw [hconcat, toNat_cpop_concat, ih, toNat_concat, count_toDigits]

theorem bitLength_le_iff {n k : Nat} : bitLength n ≤ k ↔ n < 2 ^ k := by
  unfold bitLength
  split
  · rename_i hzero
    rw [hzero]
    exact iff_of_true (Nat.zero_le k) (Nat.two_pow_pos k)
  · rename_i hpos
    rw [Nat.succ_le_iff, Nat.log2_lt hpos]

theorem toNat_clz (x : BitVec w) : x.clz.toNat = w - bitLength x.toNat := by
  by_cases hx : x = 0#w
  · have hclz : x.clz = BitVec.ofNat w w := BitVec.clz_eq_iff_eq_zero.2 hx
    rw [hclz, hx, toNat_ofNat, Nat.mod_eq_of_lt Nat.lt_two_pow_self]
    rfl
  · have hclz : x.clz < BitVec.ofNat w w := BitVec.clz_lt_iff_ne_zero.2 hx
    rw [lt_def, toNat_ofNat, Nat.mod_eq_of_lt Nat.lt_two_pow_self] at hclz
    have hle := bitLength_le_iff.2 (toNat_lt_two_pow_sub_clz (x := x))
    have hge := two_pow_sub_clz_le_toNat_of_ne_zero (by omega) hx
    rw [← Nat.not_lt, ← bitLength_le_iff] at hge
    omega

/-- A word shares with its negative the lowest one and nothing else. -/
theorem and_neg {x : BitVec w} (hx : x ≠ 0#w) : x &&& -x = twoPow w x.ctz.toNat := by
  have hlowest := getLsbD_true_ctz_of_ne_zero hx
  apply eq_of_getLsbD_eq
  intro i hi
  rw [getLsbD_and, getLsbD_neg, getLsbD_twoPow]
  rcases Nat.lt_trichotomy i x.ctz.toNat with hlt | rfl | hgt
  · have hzero := getLsbD_false_of_lt_ctz hlt
    simp [hzero]
    omega
  · have hnone : ¬ ∃ j < x.ctz.toNat, x.getLsbD j = true := by
      rintro ⟨j, hj, h⟩
      rw [getLsbD_false_of_lt_ctz hj] at h
      cases h
    simp [hlowest, hnone, hi]
  · have hsome : ∃ j < i, x.getLsbD j = true := ⟨_, hgt, hlowest⟩
    simp [hsome, hi]
    omega

theorem toNat_ctz (x : BitVec w) :
    x.ctz.toNat = if x = 0#w then w else bitLength (x &&& -x).toNat - 1 := by
  split
  · rename_i hx
    have hctz : x.reverse.clz = BitVec.ofNat w w :=
      clz_eq_iff_eq_zero.2 (reverse_eq_zero_iff.2 hx)
    rw [ctz, hctz, toNat_ofNat, Nat.mod_eq_of_lt Nat.lt_two_pow_self]
  · rename_i hx
    have hlt : x.ctz < BitVec.ofNat w w := BitVec.ctz_lt_iff_ne_zero.2 hx
    rw [lt_def, toNat_ofNat, Nat.mod_eq_of_lt Nat.lt_two_pow_self] at hlt
    have hpow : 2 ^ x.ctz.toNat < 2 ^ w := Nat.pow_lt_pow_right (by decide) hlt
    rw [and_neg hx, toNat_twoPow, Nat.mod_eq_of_lt hpow, bitLength, Nat.log2_two_pow]
    simp

end Operator

namespace BitCount

/-- A loop over the places of a word counts what arithmetic on its number gives. -/
theorem toNat_eval (way : BitCount) (x : BitVec w) :
    (way.eval x).toNat = Operator.bitCount way x := by
  cases way with
  | ones => rw [eval_ones, Operator.toNat_cpop, Operator.bitCount]
  | leadingZeros => rw [eval_leadingZeros, Operator.toNat_clz, Operator.bitCount]
  | trailingZeros =>
    rw [eval_trailingZeros, ← ctz_eq_reverse_clz, Operator.toNat_ctz, Operator.bitCount]

/-! ## Places -/

/-- That a number is the one of the ones in a word, of the zeros above its highest one, or of those
below its lowest one. Without a one all places count. -/
def Counts (way : BitCount) (x : BitVec w) (n : Nat) : Prop :=
  match way with
  | ones => n = (range w).countP x.getLsbD
  | leadingZeros =>
    n ≤ w ∧ (∀ i, w ≤ n + i → x.getLsbD i = false) ∧ (n < w → x.getLsbD (w - 1 - n) = true)
  | trailingZeros => n ≤ w ∧ (∀ i < n, x.getLsbD i = false) ∧ (n < w → x.getLsbD n = true)

theorem Counts.le {way : BitCount} {x : BitVec w} {n : Nat} (h : way.Counts x n) : n ≤ w := by
  cases way with
  | ones =>
    have hle := (range w).countP_le_length (p := x.getLsbD)
    rw [length_range] at hle
    exact h.trans_le hle
  | leadingZeros | trailingZeros => exact h.1

theorem counts_ones (x : BitVec w) : ones.Counts x x.cpop.toNat := by
  have hloop (n : Nat) : x.cpopNatRec n 0 = (range n).countP x.getLsbD := by
    induction n with
    | zero => rfl
    | succ n ih =>
      have hbit : (x.getLsbD n).toNat = [n].countP x.getLsbD := by
        rw [countP_singleton]
        cases x.getLsbD n <;> rfl
      rw [cpopNatRec_succ, cpopNatRec_add, ih, range_succ, countP_append, hbit]
  exact (toNat_cpop x).trans (hloop w)

theorem counts_leadingZeros (x : BitVec w) : leadingZeros.Counts x x.clz.toNat := by
  have hlength : Operator.bitLength x.toNat ≤ w := Operator.bitLength_le_iff.2 x.isLt
  have hclz := Operator.toNat_clz x
  refine ⟨by omega, fun i hi => ?_, fun hlt => ?_⟩
  · have hbound : x.toNat < 2 ^ i := Operator.bitLength_le_iff.1 (by omega)
    exact Nat.testBit_lt_two_pow hbound
  · refine getLsbD_true_clz_of_ne_zero (by omega) fun hzero => ?_
    rw [clz_eq_iff_eq_zero.2 hzero, natCast_eq_ofNat, toNat_ofNat,
      Nat.mod_eq_of_lt Nat.lt_two_pow_self] at hlt
    omega

theorem counts_trailingZeros (x : BitVec w) : trailingZeros.Counts x x.ctz.toNat := by
  have hwidth : (BitVec.ofNat w w).toNat = w := by
    rw [toNat_ofNat, Nat.mod_eq_of_lt Nat.lt_two_pow_self]
  refine ⟨?_, fun i hi => getLsbD_false_of_lt_ctz hi, fun hlt => ?_⟩
  · have hle : x.reverse.clz ≤ BitVec.ofNat w w := BitVec.clz_le
    rw [le_def, hwidth] at hle
    exact hle
  · refine getLsbD_true_ctz_of_ne_zero (ctz_lt_iff_ne_zero.1 ?_)
    rw [natCast_eq_ofNat, lt_def, hwidth]
    exact hlt

theorem counts_bitCount (way : BitCount) (x : BitVec w) :
    way.Counts x (Operator.bitCount way x) := by
  cases way with
  | ones =>
    rw [Operator.bitCount, ← Operator.toNat_cpop]
    exact counts_ones x
  | leadingZeros =>
    rw [Operator.bitCount, ← Operator.toNat_clz]
    exact counts_leadingZeros x
  | trailingZeros =>
    rw [Operator.bitCount, ← Operator.toNat_ctz]
    exact counts_trailingZeros x

end BitCount
end SymExec

import SymExec.Proofs.BitCount
import SymExec.Proofs.Term

/-!
# Circuits compute their terms

The expression of a term has the value of the term (`circuit_eval`), and the facts that go with it
are true whatever the bytes are (`facts_eval`). One lemma for each building block says what the
block computes.
-/
namespace SymExec.Term

open Std.Tactic.BVDecide BitVec Nat

namespace Circuit

/-! ## Bits -/

theorem getLsbD_cast {m n : Nat} (h : m = n) (x : BitVec m) (i : Nat) :
    (h ▸ x : BitVec n).getLsbD i = x.getLsbD i := by
  cases h
  rfl

theorem xor_two_pow (x n : Nat) : (x ^^^ 2 ^ n) % 2 ^ (n + 1) = (2 ^ n + x) % 2 ^ (n + 1) := by
  apply eq_of_testBit_eq
  intro i
  rw [testBit_mod_two_pow, testBit_mod_two_pow, testBit_xor, testBit_two_pow]
  rcases Nat.lt_trichotomy i n with h | rfl | h
  · rw [testBit_two_pow_add_gt h]
    simp [ne_of_gt h]
  · simp [testBit_two_pow_add_eq]
  · have : ¬ i < n + 1 := by omega
    simp [this]

/-- Inverting the sign bit moves the upper half of the numbers below the lower one. -/
theorem toNat_xor_intMin {n : Nat} (x : BitVec (n + 1)) :
    (x ^^^ intMin (n + 1)).toNat
      = if x.toNat < 2 ^ n then x.toNat + 2 ^ n else x.toNat - 2 ^ n := by
  have hx := x.isLt
  have hpow : 2 ^ (n + 1) = 2 * 2 ^ n := by rw [pow_succ, mul_comm]
  have hmin : (intMin (n + 1)).toNat = 2 ^ n := by
    have := Nat.two_pow_pos n
    rw [toNat_intMin, Nat.add_sub_cancel, Nat.mod_eq_of_lt (by omega)]
  rw [← mod_eq_of_lt (x ^^^ intMin (n + 1)).isLt, toNat_xor, hmin, xor_two_pow]
  split
  · rw [mod_eq_of_lt (by omega), add_comm]
  · rw [mod_eq_sub_mod (by omega), mod_eq_of_lt (by omega)]
    omega

theorem ult_xor_intMin {w : Nat} (x y : BitVec w) :
    (x ^^^ intMin w).ult (y ^^^ intMin w) = x.slt y := by
  cases w with
  | zero => simp [BitVec.ult, BitVec.slt, BitVec.eq_nil x, BitVec.eq_nil y]
  | succ n =>
    have hx := x.isLt
    have hy := y.isLt
    have hpow : 2 ^ (n + 1) = 2 * 2 ^ n := by rw [pow_succ, mul_comm]
    rw [Bool.eq_iff_iff, ult_iff_lt, lt_def, slt_iff_toInt_lt,
      toInt_eq_toNat_cond, toInt_eq_toNat_cond, toNat_xor_intMin, toNat_xor_intMin]
    rw [hpow] at *
    split_ifs <;> omega

/-- The highest bit of a word of width `w + 1` says whether the number reaches `2 ^ w`. -/
theorem extract_top {w : Nat} (x : BitVec (w + 1)) :
    x.extractLsb' w 1 = ofBool (decide (2 ^ w ≤ x.toNat)) := by
  have hx := x.isLt
  ext i hi
  obtain rfl : i = 0 := by omega
  rw [pow_succ] at hx
  simp only [getElem_extractLsb', add_zero, getElem_ofBool_zero]
  by_cases h : 2 ^ w ≤ x.toNat
  · have : x.toNat / 2 ^ w = 1 := Nat.div_eq_of_lt_le (by omega) (by omega)
    simp [getLsbD, testBit_eq_decide_div_mod_eq, h, this]
  · simp [getLsbD, Nat.testBit_lt_two_pow (Nat.lt_of_not_le h), h]

/-! ## Building blocks -/

variable {w : Nat} (a : BVExpr.Assignment)

theorem eval_bin (op : BVBinOp) (x y : BVExpr w) :
    (bin op x y).eval a = op.eval (x.eval a) (y.eval a) := rfl

theorem eval_invert (x : BVExpr w) : (invert x).eval a = ~~~(x.eval a) := rfl

theorem eval_sub (x y : BVExpr w) : (sub x y).eval a = x.eval a - y.eval a := by
  simp only [sub, eval_invert, eval_bin, BVBinOp.eval]
  generalize x.eval a = x
  generalize y.eval a = y
  rw [not_eq_neg_add, not_eq_neg_add]
  ring

theorem eval_resize (w' : Nat) (x : BVExpr w) : (resize w' x).eval a = (x.eval a).setWidth w' := by
  simp only [resize, BVExpr.eval_extract]
  ext i hi
  simp

theorem eval_spread (b : BVExpr 1) :
    (spread w b).eval a = if b.eval a = 1#1 then allOnes w else 0#w := by
  simp only [spread, BVExpr.eval]
  generalize b.eval a = b
  ext i hi
  rw [← getLsbD_eq_getElem, getLsbD_cast, getLsbD_replicate]
  rcases eq_one_or_zero b with rfl | rfl <;> simp [hi, mod_one]

theorem eval_sign (x : BVExpr w) : (sign x).eval a = ofBool (x.eval a).msb := by
  simp only [sign, BVExpr.eval_extract]
  generalize x.eval a = x
  ext i hi
  obtain rfl : i = 0 := by omega
  simp [msb_eq_getLsbD_last]

theorem eval_signExtend (w' : Nat) (x : BVExpr w) :
    (signExtend w' x).eval a = (x.eval a).signExtend w' := by
  unfold signExtend
  split
  · rename_i h
    simp only [BVExpr.eval]
    rw [eval_spread, eval_sign]
    generalize x.eval a = x
    ext i hi
    rw [← getLsbD_eq_getElem, getLsbD_cast, getLsbD_append,
      getElem_signExtend]
    by_cases hw : i < w
    · simp [hw]
    · have : i - w < w' - w := by omega
      cases x.msb <;> simp [hw, this]
  · rename_i h
    rw [eval_resize, signExtend_eq_setWidth_of_le _ (by omega)]

theorem eval_choose (b : BVExpr 1) (yes no : BVExpr w) :
    (choose b yes no).eval a = if b.eval a = 1#1 then yes.eval a else no.eval a := by
  simp only [choose, eval_bin, eval_invert, BVBinOp.eval, eval_spread]
  split <;> simp

theorem eval_nonzero (x : BVExpr w) : (nonzero x).eval a = ofBool (x.eval a != 0#w) := by
  simp only [nonzero, eval_bin, BVExpr.eval_extract, BVBinOp.eval, eval_resize,
    BVExpr.eval_const, extract_top]
  generalize x.eval a = x
  have hx := x.isLt
  have hpow : 2 ^ (w + 1) = 2 * 2 ^ w := by rw [pow_succ, mul_comm]
  have hsum : (x.setWidth (w + 1) + (allOnes w).setWidth (w + 1)).toNat
      = x.toNat + (2 ^ w - 1) := by
    rw [toNat_add, toNat_setWidth, toNat_setWidth, toNat_allOnes, hpow]
    rw [mod_eq_of_lt (by omega : x.toNat < _), mod_eq_of_lt (by omega : 2 ^ w - 1 < _),
      mod_eq_of_lt (by omega)]
  have hzero : x = 0#w ↔ x.toNat = 0 := by simp [toNat_eq]
  rw [hsum]
  congr 1
  rw [Bool.eq_iff_iff, bne_iff_ne, ne_eq, hzero, decide_eq_true_iff]
  omega

theorem eval_ult (x y : BVExpr w) :
    (ult x y).eval a = ofBool ((x.eval a).ult (y.eval a)) := by
  simp only [ult, BVExpr.eval_extract, eval_sub, eval_resize, extract_top]
  generalize x.eval a = x
  generalize y.eval a = y
  have hx := x.isLt
  have hy := y.isLt
  have hpow : 2 ^ (w + 1) = 2 * 2 ^ w := by rw [pow_succ, mul_comm]
  congr 1
  rw [Bool.eq_iff_iff, decide_eq_true_iff, ult_iff_lt, lt_def, toNat_sub,
    toNat_setWidth, toNat_setWidth, hpow, mod_eq_of_lt (by omega : x.toNat < _),
    mod_eq_of_lt (by omega : y.toNat < _)]
  rcases lt_or_ge x.toNat y.toNat with h | h
  · rw [mod_eq_of_lt (by omega)]
    omega
  · rw [mod_eq_sub_mod (by omega), mod_eq_of_lt (by omega)]
    omega

theorem eval_offsetSign (x : BVExpr w) : (offsetSign x).eval a = x.eval a ^^^ intMin w := by
  simp only [offsetSign, eval_bin, BVBinOp.eval, BVExpr.eval_const]

theorem eval_negateIf (b : BVExpr 1) (x : BVExpr w) :
    (negateIf b x).eval a = if b.eval a = 1#1 then -x.eval a else x.eval a := by
  simp only [negateIf, eval_bin, BVBinOp.eval, eval_sub, eval_spread]
  split
  · rw [xor_allOnes, not_eq_neg_add, neg_one_eq_allOnes.symm]
    ring
  · simp

theorem eval_magnitude (x : BVExpr w) :
    (magnitude x).eval a = if (x.eval a).msb then -x.eval a else x.eval a := by
  rw [magnitude, eval_negateIf, eval_sign]
  cases (x.eval a).msb <;> simp

theorem eval_udiv (x y : BVExpr w) : (udiv x y).eval a = (x.eval a).smtUDiv (y.eval a) := by
  simp only [udiv, eval_bin, eval_invert, BVBinOp.eval, eval_spread, eval_nonzero,
    smtUDiv_eq]
  by_cases h : y.eval a = 0#w
  · simp [h]
  · simp [h, bne_iff_ne.2 h]

theorem eval_binary (op : WordOp) (x y : BVExpr w) :
    (binary op x y).eval a = op.eval (x.eval a) (y.eval a) := by
  cases op with
  | sub => exact eval_sub a x y
  | udiv => exact eval_udiv a x y
  | sdiv =>
    simp only [binary, eval_negateIf, eval_bin, BVBinOp.eval, eval_sign, eval_udiv, eval_magnitude,
      WordOp.eval, smtSDiv_eq]
    cases (x.eval a).msb <;> cases (y.eval a).msb <;> simp
  | srem =>
    simp only [binary, eval_negateIf, eval_bin, BVBinOp.eval, eval_sign, eval_magnitude,
      WordOp.eval, srem_eq]
    cases (x.eval a).msb <;> cases (y.eval a).msb <;> simp
  | shl => exact BVExpr.eval_shiftLeft
  | lshr => exact BVExpr.eval_shiftRight
  | ashr => exact BVExpr.eval_arithShiftRight
  | add | mul | urem | and | or | xor => rfl

theorem eval_relation (rel : WordRel) (x y : BVExpr w) :
    (relation rel x y).eval a = ofBool (rel.eval (x.eval a) (y.eval a)) := by
  cases rel with
  | eq =>
    simp only [relation, eval_invert, eval_nonzero, eval_bin, BVBinOp.eval, WordRel.eval]
    by_cases h : x.eval a = y.eval a
    · simp [h]
    · have hxor : x.eval a ^^^ y.eval a ≠ 0#w := fun e => h (BitVec.xor_eq_zero_iff.1 e)
      simp [bne_iff_ne.2 hxor, beq_eq_false_iff_ne.2 h]
  | ult => exact eval_ult a x y
  | slt => simp only [relation, eval_ult, eval_offsetSign, ult_xor_intMin, WordRel.eval]

theorem eval_count (way : BitCount) (x : BVExpr w) :
    (count way x).eval a = way.eval (x.eval a) := by
  cases way with
  | ones => exact (BitCount.eval_ones _).symm
  | leadingZeros => exact (BitCount.eval_leadingZeros _).symm
  | trailingZeros => exact (BitCount.eval_trailingZeros _).symm

theorem toNat_eval_cells (env : Nat → BVExpr 8) (cs : List Cell) :
    ((cells env cs).eval a).toNat = Cell.valueOf (fun i => (env i).eval a) cs := by
  induction cs with
  | nil => rfl
  | cons c cs ih =>
    have hc : (cell env c).eval a = c.eval fun i => (env i).eval a := by cases c <;> rfl
    simp only [cells, BVExpr.eval, Cell.valueOf]
    rw [toNat_append, ih, hc, ← shiftLeft_add_eq_or_of_lt (c.eval _).isLt,
      Nat.shiftLeft_eq]
    omega

end Circuit

theorem circuit_eval (a : BVExpr.Assignment) (env : Nat → BVExpr 8) {w : Nat} (t : Term w) :
    (t.circuit env).eval a = t.eval fun i => (env i).eval a := by
  induction t with
  | const value => rfl
  | word w cs =>
    apply eq_of_toNat_eq
    rw [circuit, Circuit.eval_resize, toNat_setWidth, Circuit.toNat_eval_cells, eval,
      toNat_ofNat]
  | binary op s t ihs iht => rw [circuit, Circuit.eval_binary, ihs, iht, eval]
  | zeroExtend w' t ih => rw [circuit, Circuit.eval_resize, ih, eval]
  | signExtend w' t ih => rw [circuit, Circuit.eval_signExtend, ih, eval]
  | count way t ih => rw [circuit, Circuit.eval_count, ih, eval]
  | choose c yes no ihc ihy ihn => rw [circuit, Circuit.eval_choose, ihc, ihy, ihn, eval]
  | relation rel s t ihs iht => rw [circuit, Circuit.eval_relation, ihs, iht, eval]
  | not t ih => rw [circuit, Circuit.eval_invert, ih, eval]
  | and s t ihs iht => rw [circuit, Circuit.eval_bin, ihs, iht, BVBinOp.eval, eval]

theorem Circuit.eval_remainderFact (a : BVExpr.Assignment) {w : Nat} (x y : BVExpr w) :
    (remainderFact x y).eval a = 1#1 := by
  simp only [remainderFact, eval_bin, eval_invert, BVBinOp.eval, eval_ult, eval_nonzero]
  by_cases h : y.eval a = 0#w
  · rcases eq_one_or_zero (ofBool ((x.eval a % y.eval a).ult (y.eval a))) with e | e <;>
      rw [e] <;> simp [h]
  · have hlt : x.eval a % y.eval a < y.eval a := BitVec.umod_lt _ ((BitVec.pos_iff_ne_zero _).2 h)
    simp [ult_iff_lt.2 hlt, bne_iff_ne.2 h]

theorem facts_eval (a : BVExpr.Assignment) (env : Nat → BVExpr 8) {w : Nat} (t : Term w) :
    ∀ fact ∈ t.facts env, fact.eval a = 1#1 := by
  induction t with
  | const | word => simp [facts]
  | binary op s t ihs iht =>
    intro fact hfact
    simp only [facts, List.mem_append] at hfact
    rcases hfact with (hown | hs) | ht
    · cases op with
      | urem | srem =>
        rw [List.mem_singleton] at hown
        rw [hown, Circuit.eval_remainderFact]
      | _ => cases hown
    · exact ihs fact hs
    · exact iht fact ht
  | zeroExtend _ _ ih | signExtend _ _ ih | count _ _ ih | not _ ih => exact ih
  | choose _ _ _ ihc ihy ihn =>
    intro fact hfact
    simp only [facts, List.mem_append] at hfact
    rcases hfact with (hc | hy) | hn
    · exact ihc fact hc
    · exact ihy fact hy
    · exact ihn fact hn
  | relation _ _ _ ihs iht | and _ _ ihs iht =>
    intro fact hfact
    simp only [facts, List.mem_append] at hfact
    exact hfact.elim (ihs fact) (iht fact)

end SymExec.Term

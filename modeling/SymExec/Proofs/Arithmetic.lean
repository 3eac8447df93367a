import SymExec.Proofs.Derive

/-!
# Numbers and words

Known operands are computed with as numbers, symbolic ones as words. The two agree: the number that
an operator gives on the numbers of two words is the number of the word that its term gives
(`Operator.onInts_combine`, `Operator.onInts_shift`), except that a number cannot be divided by zero.
-/
namespace SymExec

open BitVec Kind

/-- The number that a word of a kind stands for. -/
def Kind.number (kind : Kind) (a : BitVec kind.bits) : Int :=
  if kind.isSigned then a.toInt else a.toNat

namespace Kind

variable {kind : Kind} {a b : BitVec kind.bits}

@[simp] theorem ofInt_number : BitVec.ofInt kind.bits (kind.number a) = a := by
  unfold number
  split
  · exact ofInt_toInt
  · rw [ofInt_natCast, ofNat_toNat, setWidth_eq]

theorem le_bits (kind : Kind) : 8 ≤ kind.bits := by
  cases kind with
  | int w _ => cases w <;> decide +revert
  | _ => decide

theorem numBytes_pos (kind : Kind) : 0 < kind.numBytes := by
  have := kind.le_bits
  unfold bits at this
  omega

theorem number_inj : kind.number a = kind.number b ↔ a = b := by
  constructor
  · intro h
    rw [← ofInt_number (a := a), h, ofInt_number]
  · rintro rfl
    rfl

theorem number_eq_zero : kind.number a = 0 ↔ a = 0#_ := by
  have hzero : kind.number 0#_ = 0 := by
    unfold number
    split <;> simp
  rw [← hzero, number_inj]

theorem number_lt : kind.number a < kind.number b ↔
    (if kind.isSigned then WordRel.slt else .ult).eval a b = true := by
  unfold number
  cases kind.isSigned with
  | true => exact slt_iff_toInt_lt.symm
  | false => simp [WordRel.eval, BitVec.ult]

def least (kind : Kind) : Int := if kind.isSigned then -2 ^ (kind.bits - 1) else 0

def greatest (kind : Kind) : Int := 2 ^ (if kind.isSigned then kind.bits - 1 else kind.bits) - 1

theorem two_pow_bits (kind : Kind) : (2 : Int) ^ kind.bits = 2 * 2 ^ (kind.bits - 1) := by
  have hbits := kind.le_bits
  rw [← Int.pow_succ', Nat.sub_add_cancel (by omega)]

theorem number_ofInt_eq_iff {n : Int} :
    kind.number (BitVec.ofInt kind.bits n) = n ↔ kind.least ≤ n ∧ n ≤ kind.greatest := by
  have hpos : (0 : Int) < 2 ^ kind.bits := Int.pow_pos (by decide)
  have hhalf := kind.two_pow_bits
  unfold number least greatest
  cases kind.isSigned with
  | true =>
    simp only [if_true, BitVec.toInt_ofInt]
    have hle := Int.le_bmod (x := n) (Nat.two_pow_pos kind.bits)
    have hlt := Int.bmod_lt (x := n) (Nat.two_pow_pos kind.bits)
    push_cast at hle hlt
    constructor
    · omega
    · rintro ⟨hleast, hgreatest⟩
      exact Int.bmod_eq_of_le (by push_cast; omega) (by push_cast; omega)
  | false =>
    simp only [Bool.false_eq_true, if_false, BitVec.toNat_ofInt]
    have hnonneg := Int.emod_nonneg n (Int.ne_of_gt hpos)
    have hlt := Int.emod_lt_of_pos n hpos
    push_cast
    rw [Int.toNat_of_nonneg hnonneg]
    constructor
    · omega
    · rintro ⟨hleast, hgreatest⟩
      exact Int.emod_eq_of_lt hleast (by omega)

end Kind

namespace Scalar

theorem ofBits_congr {kind : Kind} {n n' : Int}
    (h : BitVec.ofInt kind.bits n = BitVec.ofInt kind.bits n') : ofBits n kind = ofBits n' kind := by
  unfold ofBits
  rw [h]

theorem ofBits_toNat {kind : Kind} {n : Int} {a : BitVec kind.bits}
    (h : BitVec.ofInt kind.bits n = a) : ofBits n kind = ofBits a.toNat kind := by
  apply ofBits_congr
  rw [h, BitVec.ofInt_natCast, BitVec.ofNat_toNat, BitVec.setWidth_eq]

end Scalar

/-! ## Operators -/

theorem smtSDiv_of_ne_zero {w : Nat} {x y : BitVec w} (h : y ≠ 0#w) :
    x.smtSDiv y = x.sdiv y := by
  have hneg : -y ≠ 0#w := by simpa using h
  rw [smtSDiv_eq, sdiv_eq]
  simp only [smtUDiv_eq, if_neg h, if_neg hneg, udiv_eq]

theorem ofInt_tdiv {kind : Kind} {a b : BitVec kind.bits} (h : b ≠ 0#_) :
    BitVec.ofInt kind.bits ((kind.number a).tdiv (kind.number b))
      = (if kind.isSigned then WordOp.sdiv else .udiv).eval a b := by
  unfold number
  cases kind.isSigned with
  | true =>
    simp only [if_true, WordOp.eval]
    rw [smtSDiv_of_ne_zero h]
    apply eq_of_toInt_eq
    rw [toInt_ofInt, toInt_sdiv]
  | false =>
    simp only [Bool.false_eq_true, if_false, WordOp.eval]
    rw [smtUDiv_eq, if_neg h, ← Int.ofNat_tdiv, ofInt_natCast]
    apply eq_of_toNat_eq
    have := Nat.div_le_self a.toNat b.toNat
    rw [toNat_ofNat, toNat_udiv, Nat.mod_eq_of_lt (by omega)]

theorem ofInt_tmod {kind : Kind} {a b : BitVec kind.bits} :
    BitVec.ofInt kind.bits ((kind.number a).tmod (kind.number b))
      = (if kind.isSigned then WordOp.srem else .urem).eval a b := by
  unfold number
  cases kind.isSigned with
  | true =>
    simp only [if_true, WordOp.eval]
    rw [← toInt_srem, ofInt_toInt]
  | false =>
    simp only [Bool.false_eq_true, if_false, WordOp.eval]
    rw [← Int.ofNat_tmod, ofInt_natCast]
    apply eq_of_toNat_eq
    have := Nat.mod_le a.toNat b.toNat
    rw [toNat_ofNat, toNat_umod, Nat.mod_eq_of_lt (by omega)]

/-- The value of what a binary operator makes of two words. -/
def Store.Combined.value (v : Valuation) (kind : Kind) : Store.Combined kind.bits → Scalar
  | .word t => .ofBits (t.eval v).toNat kind
  | .truth c => .ofBool (c.holds v)

namespace Operator

open Store

variable {kind : Kind} {op : BinOp} {v : Valuation} {a b : Term kind.bits}

theorem compared_number (op : BinOp) (h : op.isComparison) :
    Scalar.ofBool (compared op (some (compare (kind.number (a.eval v)) (kind.number (b.eval v)))))
      = (combine kind.isSigned op a b).value v kind := by
  have heq : compare (kind.number (a.eval v)) (kind.number (b.eval v)) = .eq ↔
      a.eval v = b.eval v := by
    rw [compare_eq_iff_eq, number_inj]
  have hlt := compare_lt_iff_lt (a := kind.number (a.eval v)) (b := kind.number (b.eval v))
  have hgt := compare_gt_iff_gt (a := kind.number (a.eval v)) (b := kind.number (b.eval v))
  rw [number_lt] at hlt
  rw [number_lt] at hgt
  have hbeq : (a.eval v == b.eval v)
      = (compare (kind.number (a.eval v)) (kind.number (b.eval v)) == .eq) := by
    rw [Bool.eq_iff_iff, beq_iff_eq, beq_iff_eq, heq]
  cases op with
  | eq | ne =>
    refine congrArg Scalar.ofBool ?_
    cases hc : compare (kind.number (a.eval v)) (kind.number (b.eval v)) <;>
      rw [hc] at hbeq <;> simp [compared, bne, hbeq]
  | lt | le | gt | ge =>
    cases hc : compare (kind.number (a.eval v)) (kind.number (b.eval v)) <;>
      rw [hc] at hlt hgt <;>
      simp_all [compared, combine, Combined.value, Term.less, Term.atMost]
  | _ => cases h

/-- On the numbers of two words an operator gives the value of its term. -/
theorem onInts_combine (hshift : op.isShift = false) (hzero : op = .div ∨ op = .rem → b.eval v ≠ 0#_) :
    onInts op (kind.number (a.eval v)) (kind.number (b.eval v)) kind
      = .ok ((combine kind.isSigned op a b).value v kind) := by
  unfold onInts
  cases hcmp : op.isComparison with
  | true => rw [if_pos rfl, compared_number op hcmp]
  | false =>
    have hnumber : op = .div ∨ op = .rem → kind.number (b.eval v) ≠ 0 :=
      fun hop => fun h => hzero hop (number_eq_zero.1 h)
    simp only [Bool.false_eq_true, if_false]
    cases op with
    | add =>
      refine congrArg Except.ok (Scalar.ofBits_toNat ?_)
      rw [BitVec.ofInt_add, ofInt_number, ofInt_number]
      rfl
    | sub =>
      refine congrArg Except.ok (Scalar.ofBits_toNat ?_)
      rw [Int.sub_eq_add_neg, BitVec.ofInt_add, BitVec.ofInt_neg, ofInt_number,
        ofInt_number, ← BitVec.sub_eq_add_neg]
      rfl
    | mul =>
      refine congrArg Except.ok (Scalar.ofBits_toNat ?_)
      rw [BitVec.ofInt_mul, ofInt_number, ofInt_number]
      rfl
    | div =>
      simp only [if_neg (hnumber (.inl rfl))]
      exact congrArg Except.ok (Scalar.ofBits_toNat (ofInt_tdiv (hzero (.inl rfl))))
    | rem =>
      simp only [if_neg (hnumber (.inr rfl))]
      exact congrArg Except.ok (Scalar.ofBits_toNat ofInt_tmod)
    | bitXor | bitAnd | bitOr =>
      simp only [ofInt_number]
      rfl
    | shl | shr => cases hshift
    | eq | ne | lt | le | gt | ge => cases hcmp

theorem onInts_zero (hop : op = .div ∨ op = .rem) (a : Int) (kind : Kind) :
    onInts op a (kind.number 0#_) kind = .error .divisionByZero := by
  rw [number_eq_zero.2 rfl]
  rcases hop with rfl | rfl <;> rfl

/-! ## Shifts -/

theorem bits_eq_pow (kind : Kind) : ∃ k ≤ 7, kind.bits = 2 ^ k := by
  cases kind with
  | int w _ =>
    cases w with
    | w8 => exact ⟨3, by decide, rfl⟩
    | w16 => exact ⟨4, by decide, rfl⟩
    | w32 => exact ⟨5, by decide, rfl⟩
    | w64 => exact ⟨6, by decide, rfl⟩
    | w128 => exact ⟨7, by decide, rfl⟩
  | bool => exact ⟨3, by decide, rfl⟩
  | f32 | char => exact ⟨5, by decide, rfl⟩
  | f64 | ptr | fnPtr => exact ⟨6, by decide, rfl⟩

/-- An amount modulo the width depends on its low byte only. -/
theorem mod_bits_of_dvd (kind : Kind) {n d : Nat} (h : 256 ∣ d) : n % d % kind.bits = n % kind.bits := by
  obtain ⟨k, hk, hbits⟩ := bits_eq_pow kind
  have hdvd : 2 ^ k ∣ 256 := Nat.pow_dvd_pow 2 (show k ≤ 8 by omega)
  rw [hbits, Nat.mod_mod_of_dvd n (Nat.dvd_trans hdvd h)]

/-- On the number of a word and an amount modulo the width, a shift gives the value of its term. -/
theorem onInts_shift {n : Nat} (hshift : op.isShift) (hamount : (b.eval v).toNat = n % kind.bits) :
    onInts op (kind.number (a.eval v)) n kind
      = .ok ((combine kind.isSigned op a b).value v kind) := by
  have hn : ((n : Int) % kind.bits).toNat = (b.eval v).toNat := by
    rw [hamount]
    exact_mod_cast Int.toNat_natCast _
  have hpow : BitVec.ofInt kind.bits (2 ^ (b.eval v).toNat)
      = twoPow kind.bits (b.eval v).toNat := by
    rw [show (2 : Int) ^ (b.eval v).toNat = ((2 ^ (b.eval v).toNat : Nat) : Int) by simp,
      ofInt_natCast]
    exact eq_of_toNat_eq (by rw [toNat_ofNat, toNat_twoPow])
  cases op with
  | shl =>
    refine congrArg Except.ok (Scalar.ofBits_toNat ?_)
    rw [hn, ofInt_mul, ofInt_number, hpow, ← shiftLeft_eq_mul_twoPow]
    rfl
  | shr =>
    refine congrArg Except.ok (Scalar.ofBits_toNat ?_)
    change _ = (if kind.isSigned then WordOp.ashr else .lshr).eval (a.eval v) (b.eval v)
    rw [hn]
    unfold number
    cases kind.isSigned with
    | true =>
      simp only [if_true, WordOp.eval]
      have hshifted : (a.eval v).toInt / 2 ^ (b.eval v).toNat
          = ((a.eval v).sshiftRight (b.eval v).toNat).toInt := by
        rw [toInt_sshiftRight, Int.shiftRight_eq_div_pow]
        norm_cast
      rw [hshifted, sshiftRight_eq', ofInt_toInt]
    | false =>
      simp only [Bool.false_eq_true, if_false, WordOp.eval]
      have hle := Nat.div_le_self (a.eval v).toNat (2 ^ (b.eval v).toNat)
      rw [show ((a.eval v).toNat : Int) / 2 ^ (b.eval v).toNat
        = (((a.eval v).toNat / 2 ^ (b.eval v).toNat : Nat) : Int) by simp, ofInt_natCast]
      apply eq_of_toNat_eq
      rw [toNat_ofNat, ushiftRight_eq', toNat_ushiftRight,
        Nat.shiftRight_eq_div_pow, Nat.mod_eq_of_lt (by omega)]
  | _ => cases hshift

/-! ## Overflow -/

/-- An operation on words that is an exact one on numbers, wrapped. -/
structure Wraps (op : WordOp) (exact : Int → Int → Int) : Prop where
  ofInt (w : Nat) (x y : Int) :
    BitVec.ofInt w (exact x y) = op.eval (BitVec.ofInt w x) (BitVec.ofInt w y)
  bound {x y : Int} {k : Nat} (hk : 2 ≤ k) (hx : x.natAbs ≤ k) (hy : y.natAbs ≤ k) :
    (exact x y).natAbs ≤ k * k

theorem wraps_add : Wraps .add fun x y => x + y where
  ofInt _ := BitVec.ofInt_add
  bound {x y k} hk hx hy := by
    have hsum := Int.natAbs_add_le x y
    have hdouble := Nat.mul_le_mul_right k hk
    omega

theorem wraps_sub : Wraps .sub fun x y => x - y where
  ofInt w x y := by
    rw [Int.sub_eq_add_neg, BitVec.ofInt_add, BitVec.ofInt_neg, ← BitVec.sub_eq_add_neg]
    rfl
  bound {x y k} hk hx hy := by
    have hsum := Int.natAbs_sub_le x y
    have hdouble := Nat.mul_le_mul_right k hk
    omega

theorem wraps_mul : Wraps .mul fun x y => x * y where
  ofInt _ := BitVec.ofInt_mul
  bound _ hx hy := by
    rw [Int.natAbs_mul]
    exact Nat.mul_le_mul hx hy

theorem natAbs_number_lt (a : BitVec kind.bits) : (kind.number a).natAbs < 2 ^ kind.bits := by
  have hlt := a.isLt
  unfold number
  split
  · rw [toInt_eq_toNat_cond]
    split <;> omega
  · omega

theorem eval_widen (t : Term kind.bits) (v : Valuation) :
    (widen kind.isSigned t).eval v
      = BitVec.ofInt (2 * kind.bits) (kind.number (t.eval v)) := by
  unfold widen number
  cases kind.isSigned with
  | true => simp [Term.eval, signExtend]
  | false => simp [Term.eval, ofInt_natCast]

/-- Numbers that are close together have different words. -/
theorem eq_of_ofInt_eq {w : Nat} {x y : Int} (h : BitVec.ofInt w x = BitVec.ofInt w y)
    (hclose : (x - y).natAbs < 2 ^ w) : x = y := by
  have hpos : (0 : Int) < 2 ^ w := Int.pow_pos (by decide)
  have hmod : x % 2 ^ w = y % 2 ^ w := by
    have hnat := congrArg BitVec.toNat h
    rw [toNat_ofInt, toNat_ofInt] at hnat
    have hx := Int.emod_nonneg x (Int.ne_of_gt hpos)
    have hy := Int.emod_nonneg y (Int.ne_of_gt hpos)
    push_cast at hnat
    omega
  have hdvd : (2 ^ w : Int) ∣ x - y :=
    Int.dvd_of_emod_eq_zero (Int.emod_eq_emod_iff_emod_sub_eq_zero.1 hmod)
  have hzero := Int.eq_zero_of_dvd_of_natAbs_lt_natAbs hdvd (by simpa [Int.natAbs_pow] using hclose)
  omega

/-- An operation overflows at its width if at twice the width it has another result. -/
theorem holds_overflow {op : WordOp} {exact : Int → Int → Int} (h : Wraps op exact)
    (a b : Term kind.bits) (v : Valuation) :
    (Term.differ (widen kind.isSigned (.binary op a b))
        (.binary op (widen kind.isSigned a) (widen kind.isSigned b))).holds v
      = (kind.number (op.eval (a.eval v) (b.eval v))
          != exact (kind.number (a.eval v)) (kind.number (b.eval v))) := by
  have heval : (Term.binary op (widen kind.isSigned a) (widen kind.isSigned b)).eval v
      = BitVec.ofInt (2 * kind.bits) (exact (kind.number (a.eval v)) (kind.number (b.eval v))) := by
    rw [h.ofInt, ← eval_widen, ← eval_widen]
    rfl
  rw [Term.holds_differ, eval_widen, heval]
  -- Both numbers are so small that at twice the width they differ only if they differ at all.
  have hbits := kind.le_bits
  have hpow : 2 ^ 8 ≤ 2 ^ kind.bits := Nat.pow_le_pow_right (by decide) hbits
  have ha := natAbs_number_lt (a.eval v)
  have hb := natAbs_number_lt (b.eval v)
  have hwrapped := natAbs_number_lt (op.eval (a.eval v) (b.eval v))
  have hexact := h.bound (k := 2 ^ kind.bits - 1) (by omega) (Nat.le_sub_one_of_lt ha)
    (Nat.le_sub_one_of_lt hb)
  have hsquare : (2 ^ kind.bits - 1) * (2 ^ kind.bits - 1) + 2 ^ kind.bits
      ≤ 2 ^ (2 * kind.bits) := by
    rw [Nat.two_mul, Nat.pow_add, Nat.sub_one_mul, Nat.mul_sub_one]
    have := Nat.mul_le_mul_right (2 ^ kind.bits) (show 2 ≤ 2 ^ kind.bits by omega)
    omega
  rw [Bool.eq_iff_iff, bne_iff_ne, bne_iff_ne, not_iff_not]
  constructor
  · intro heq
    refine eq_of_ofInt_eq heq ?_
    have := Int.natAbs_sub_le (kind.number (op.eval (a.eval v) (b.eval v)))
      (exact (kind.number (a.eval v)) (kind.number (b.eval v)))
    omega
  · exact congrArg _

end Operator
end SymExec

import SymExec.Proofs.Magnitude
import SymExec.Proofs.Wrapping
import Mathlib.Order.WithBotTop

/-!
# Rounding to the nearest number

A pattern of a binary format is a sign and a magnitude. With the magnitude that `Format.round` finds it
stands for the nearest number of the format, or for an infinity if the number to round is too large
(`Format.nearest_withSign`), and larger numbers have no smaller results (`Format.ofInt_mono`). The cast
of an integer to a float is such a rounding (`Cast.cast_int_rounds`).
-/
namespace SymExec.Binary

attribute [local instance(2000)] instPowNat

namespace Format

variable {x y : ℚ} {f : Format}
variable {m n p : ℕ}

/-! ## Patterns -/

theorem Lawful.two_pow_width (hf : f.Lawful) :
    2 ^ (f.width - 1) = 2 ^ (f.width - f.precision) * f.span := by
  have hp := hf.precision
  have hw := hf.width
  rw [span, ← Nat.pow_add]
  congr 1
  omega

theorem infinity_add_span (f : Format) : f.infinity + f.span = 2 ^ (f.width - f.precision) * f.span := by
  have hpos := Nat.two_pow_pos (f.width - f.precision)
  calc f.infinity + f.span = (2 ^ (f.width - f.precision) - 1) * f.span + 1 * f.span := by
        rw [Nat.one_mul]
        rfl
    _ = (2 ^ (f.width - f.precision) - 1 + 1) * f.span := (Nat.add_mul _ _ _).symm
    _ = 2 ^ (f.width - f.precision) * f.span := by rw [Nat.sub_add_cancel hpos]

theorem Lawful.infinity_lt (hf : f.Lawful) : f.infinity < 2 ^ (f.width - 1) := by
  have hsum := f.infinity_add_span
  have hspan := f.span_pos
  rw [hf.two_pow_width]
  omega

theorem Lawful.even_infinity (hf : f.Lawful) : Even f.infinity := hf.even_span.mul_left _

theorem Lawful.two_pow_width_eq (hf : f.Lawful) : 2 ^ f.width = 2 * 2 ^ (f.width - 1) := by
  have hp := hf.precision
  have hw := hf.width
  rw [← Nat.pow_succ', show (f.width - 1).succ = f.width by omega]

/-- The sign and the magnitude of a pattern are those that it was made of. -/
theorem of_withSign (hm : m < 2 ^ (f.width - 1)) (s : Bool) :
    f.magnitude (f.withSign s m) = m ∧ f.isNegative (f.withSign s m) = s := by
  have hpos := Nat.two_pow_pos (f.width - 1)
  unfold magnitude isNegative withSign
  cases s with
  | true =>
    rw [if_pos rfl, Nat.add_mod_right, Nat.mod_eq_of_lt hm, Nat.add_div_right _ hpos,
      Nat.div_eq_of_lt hm]
    exact ⟨rfl, rfl⟩
  | false =>
    rw [if_neg (by decide), Nat.mod_eq_of_lt hm, Nat.div_eq_of_lt hm]
    exact ⟨rfl, rfl⟩

theorem withSign_lt (hf : f.Lawful) (hm : m < 2 ^ (f.width - 1)) (s : Bool) :
    f.withSign s m < 2 ^ f.width := by
  rw [hf.two_pow_width_eq, withSign]
  split_ifs
  · omega
  · omega

theorem decode_infinity (h : f.magnitude p = f.infinity) : f.decode p = .infinite (f.isNegative p) := by
  unfold decode
  simp only [h, lt_irrefl, if_false, if_true]

/-- A finite number has the value of its magnitude, and it is even if its magnitude is. -/
theorem decode_finite (hf : f.Lawful) (h : f.magnitude p < f.infinity) :
    ∃ m e, f.decode p = .finite (f.isNegative p) m e ∧ (m * 2 ^ e : ℚ) = f.value (f.magnitude p) ∧
      (Even m ↔ Even (f.magnitude p)) := by
  have hspan := hf.even_span
  have heven : Even (f.magnitude p % f.span) ↔ Even (f.magnitude p) := by
    have hdiv := Nat.div_add_mod (f.magnitude p) f.span
    nth_rewrite 2 [← hdiv]
    rw [Nat.even_add, iff_true_left (hspan.mul_right _)]
  have hdecode : f.decode p = if f.magnitude p / f.span = 0
      then .finite (f.isNegative p) (f.magnitude p % f.span) f.minExp
      else .finite (f.isNegative p) (f.magnitude p % f.span + f.span)
        (f.minExp + (f.magnitude p / f.span : ℕ) - 1) := by
    unfold decode
    simp only [not_lt_of_gt h, h.ne, if_false]
    rfl
  unfold value
  rw [hdecode]
  split_ifs
  · exact ⟨_, _, rfl, rfl, heven⟩
  · refine ⟨_, _, rfl, rfl, ?_⟩
    rw [Nat.even_add, heven, iff_true_right hspan]

theorem magnitude_lt_of_decode {s : Bool} {e : ℤ} (h : f.decode p = .finite s m e) :
    f.magnitude p < f.infinity := by
  unfold decode at h
  simp only at h
  split_ifs at h with hnan hinf
  · omega
  · omega

theorem value_of_decode (hf : f.Lawful) {s : Bool} {e : ℤ} (h : f.decode p = .finite s m e) :
    (m * 2 ^ e : ℚ) = f.value (f.magnitude p) := by
  obtain ⟨m', e', h', hvalue, -⟩ := decode_finite hf (magnitude_lt_of_decode h)
  cases h.symm.trans h'
  exact hvalue

/-! ## The nearest number -/

def signed (s : Bool) (y : ℚ) : ℚ := if s then -y else y

theorem abs_signed_sub (s : Bool) (y z : ℚ) : |signed s y - signed s z| = |y - z| := by
  cases s with
  | true => rw [signed, signed, if_pos rfl, if_pos rfl, neg_sub_neg, abs_sub_comm]
  | false => rfl

theorem abs_signed_sub_of_ne {s t : Bool} (h : s ≠ t) (hy : 0 ≤ y) {z : ℚ} (hz : 0 ≤ z) :
    |signed s y - signed t z| = y + z := by
  have hsum : 0 ≤ y + z := add_nonneg hy hz
  cases s with
  | true =>
    obtain rfl : t = false := by simpa using h.symm
    rw [signed, signed, if_pos rfl, if_neg (by decide), ← neg_add', abs_neg, abs_of_nonneg hsum]
  | false =>
    obtain rfl : t := by simpa using h.symm
    rw [signed, signed, if_neg (by decide), if_pos rfl, sub_neg_eq_add, abs_of_nonneg hsum]

theorem abs_signed (s : Bool) (y : ℚ) : |signed s y| = |y| := by
  cases s with
  | true => exact abs_neg y
  | false => rfl

/-- The largest finite number: all bits of its significand are ones. -/
def largest (f : Format) : ℚ := (2 ^ f.precision - 1) * 2 ^ f.topExp

/-- The largest finite number and half a unit in its last place. -/
def overflow (f : Format) : ℚ := f.largest + 2 ^ f.topExp / 2

/-- The result of rounding a number: nearest to it of all finite numbers of the format, with an even
significand if another one is as near, or infinite with its sign if it is too large. -/
inductive Nearest (f : Format) (x : ℚ) : Number → Prop where
  | finite {s : Bool} {m : ℕ} {e : ℤ} (hlt : |x| < f.overflow)
    (hle : ∀ p t n d, f.decode p = .finite t n d →
      |x - signed s (m * 2 ^ e)| ≤ |x - signed t (n * 2 ^ d)|)
    (htie : ∀ p t n d, f.decode p = .finite t n d →
      |x - signed s (m * 2 ^ e)| = |x - signed t (n * 2 ^ d)| →
        signed t (n * 2 ^ d) = signed s (m * 2 ^ e) ∨ Even m) : Nearest f x (.finite s m e)
  | infinite {s : Bool} (hle : f.overflow ≤ |x|) (hs : s = decide (x < 0)) : Nearest f x (.infinite s)

theorem Lawful.exists_infinity (hf : f.Lawful) :
    ∃ l, f.infinity = l + 1 ∧ f.midpoint l = f.overflow := by
  obtain ⟨k, hk⟩ : ∃ k, 2 ^ (f.width - f.precision) = k + 3 := by
    have hw := hf.width
    have hle : 2 ^ 2 ≤ 2 ^ (f.width - f.precision) := Nat.pow_le_pow_right two_pos (by omega)
    exact ⟨2 ^ (f.width - f.precision) - 3, by omega⟩
  have hspan := f.span_pos
  have hinf : f.infinity = k * f.span + (2 * f.span - 1) + 1 := by
    have hsum := f.infinity_add_span
    have hmul : (k + 3) * f.span = k * f.span + 3 * f.span := Nat.add_mul _ _ _
    rw [hk, hmul] at hsum
    omega
  refine ⟨k * f.span + (2 * f.span - 1), hinf, ?_⟩
  have hnext : k * f.span + (2 * f.span - 1) + 1 = k * f.span + 2 * f.span := by omega
  have htop : f.topExp = f.minExp + k := by
    rw [Format.topExp, hk]
    push_cast
    ring
  have hpow : ((2 * f.span : ℕ) : ℚ) = 2 ^ f.precision := by
    rw [hf.two_mul_span]
    push_cast
    rfl
  unfold midpoint overflow largest
  rw [hnext, value_mul_span_add (by omega) (by omega), value_mul_span_add le_rfl (by omega), htop,
    Nat.cast_sub (by omega), hpow]
  push_cast
  ring

theorem Lawful.overflow_pos (hf : f.Lawful) : 0 < f.overflow := by
  obtain ⟨l, -, hmid⟩ := hf.exists_infinity
  have hlow := f.value_nonneg l
  have hhigh := f.value_strictMono (Nat.lt_succ_self l)
  rw [← hmid, midpoint]
  linarith

/-- A magnitude is infinite from the first number that is too large on. -/
theorem Rounds.infinity_le_iff (hf : f.Lawful) (h : f.Rounds x m) :
    f.infinity ≤ m ↔ f.overflow ≤ x := by
  obtain ⟨l, hl, hmid⟩ := hf.exists_infinity
  rw [hl, h.succ_le_iff (hl ▸ hf.even_infinity), hmid]

/-- What the pattern of a magnitude that is cut at infinity stands for. -/
theorem decode_withSign (hf : f.Lawful) (s : Bool) (m : ℕ) :
    (f.infinity ≤ m ∧ f.decode (f.withSign s (min m f.infinity)) = .infinite s) ∨
      m < f.infinity ∧ ∃ n e, f.decode (f.withSign s (min m f.infinity)) = .finite s n e ∧
        (n * 2 ^ e : ℚ) = f.value m ∧ (Even n ↔ Even m) := by
  rcases le_or_gt f.infinity m with hle | hlt
  · obtain ⟨hmagnitude, hsign⟩ := of_withSign hf.infinity_lt s
    refine .inl ⟨hle, ?_⟩
    rw [min_eq_right hle, decode_infinity hmagnitude, hsign]
  · obtain ⟨hmagnitude, hsign⟩ := of_withSign (hlt.trans hf.infinity_lt) s
    obtain ⟨n, e, hdecode, hvalue, heven⟩ :=
      decode_finite hf (p := f.withSign s m) (hmagnitude.symm ▸ hlt)
    rw [hmagnitude] at hvalue heven
    rw [hsign] at hdecode
    exact .inr ⟨hlt, n, e, by rw [min_eq_left hlt.le, hdecode], hvalue, heven⟩

theorem nearest_withSign (hf : f.Lawful) (h : f.Rounds y m) (hy : 0 ≤ y) (s : Bool) :
    f.Nearest (signed s y) (f.decode (f.withSign s (min m f.infinity))) := by
  have habs : |signed s y| = y := (abs_signed s y).trans (abs_of_nonneg hy)
  rcases decode_withSign hf s m with ⟨hle, hdecode⟩ | ⟨hlt, n, e, hdecode, hvalue, heven⟩
  · have hover : f.overflow ≤ y := (h.infinity_le_iff hf).1 hle
    have hpos : 0 < y := hf.overflow_pos.trans_le hover
    rw [hdecode]
    refine .infinite (habs.symm ▸ hover) ?_
    cases s with
    | true => exact (decide_eq_true (neg_neg_of_pos hpos)).symm
    | false => exact (decide_eq_false (not_lt_of_gt hpos)).symm
  · have hunder : y < f.overflow :=
      lt_of_not_ge fun hover => not_le_of_gt hlt ((h.infinity_le_iff hf).2 hover)
    rw [hdecode]
    -- a number of the other sign is no nearer than zero
    have hzero : |y - f.value m| ≤ y := by
      have hle := h.abs_sub_le 0
      rwa [value_zero, sub_zero, abs_of_nonneg hy] at hle
    refine .finite (habs.symm ▸ hunder) (fun p t j d hp => ?_) fun p t j d hp htie => ?_
    · rw [hvalue, value_of_decode hf hp, abs_signed_sub]
      by_cases hsign : s = t
      · rw [← hsign, abs_signed_sub]
        exact h.abs_sub_le _
      · rw [abs_signed_sub_of_ne hsign hy (f.value_nonneg _)]
        linarith [f.value_nonneg (f.magnitude p)]
    · rw [hvalue, value_of_decode hf hp, abs_signed_sub] at htie
      rw [hvalue, value_of_decode hf hp]
      by_cases hsign : s = t
      · rw [← hsign, abs_signed_sub] at htie
        by_cases hsame : f.magnitude p = m
        · exact .inl (by rw [hsame, hsign])
        · exact .inr (heven.2 (h.even_of_abs_eq hsame htie))
      · rw [abs_signed_sub_of_ne hsign hy (f.value_nonneg _)] at htie
        have hnone : f.value (f.magnitude p) = 0 := by linarith [f.value_nonneg (f.magnitude p)]
        by_cases hm : m = 0
        · exact .inl (by rw [hnone, hm, value_zero, signed, signed, neg_zero, ite_self, ite_self])
        · refine .inr (heven.2 (h.even_of_abs_eq (n := 0) (Ne.symm hm) ?_))
          rw [htie, hnone, value_zero, add_zero, sub_zero, abs_of_nonneg hy]

/-! ## The order of numbers -/

/-- The end of the line of numbers on the side of a sign. -/
def farEnd : Bool → WithBotTop ℚ
  | true => ⊥
  | false => ⊤

/-- The place of a number on the line of numbers. -/
def position? : Number → Option (WithBotTop ℚ)
  | .finite s m e => some (signed s (m * 2 ^ e) : ℚ)
  | .infinite s => some (farEnd s)
  | .nan => none

/-- The place of a magnitude that is cut at infinity. -/
def extent (f : Format) (s : Bool) (m : ℕ) : WithBotTop ℚ :=
  if f.infinity ≤ m then farEnd s else (signed s (f.value m) : ℚ)

theorem position?_withSign (hf : f.Lawful) (s : Bool) (m : ℕ) :
    position? (f.decode (f.withSign s (min m f.infinity))) = some (f.extent s m) := by
  unfold extent
  rcases decode_withSign hf s m with ⟨hle, hdecode⟩ | ⟨hlt, n, e, hdecode, hvalue, -⟩
  · rw [hdecode, if_pos hle]
    rfl
  · rw [hdecode, if_neg (not_le_of_gt hlt), ← hvalue]
    rfl

theorem extent_false_mono (h : m ≤ n) : f.extent false m ≤ f.extent false n := by
  unfold extent
  split_ifs with hm hn
  · exact le_rfl
  · exact absurd (hm.trans h) hn
  · exact le_top (α := WithBotTop ℚ)
  · exact WithBotTop.coe_le_coe.2 (f.value_strictMono.monotone h)

theorem extent_true_anti (h : m ≤ n) : f.extent true n ≤ f.extent true m := by
  unfold extent
  split_ifs with hn hm hm
  · exact le_rfl
  · exact bot_le (α := WithBotTop ℚ)
  · exact absurd (hm.trans h) hn
  · exact WithBotTop.coe_le_coe.2 (neg_le_neg (f.value_strictMono.monotone h))

theorem extent_true_le_false (m n : ℕ) : f.extent true m ≤ f.extent false n := by
  unfold extent
  split_ifs
  · exact bot_le (α := WithBotTop ℚ)
  · exact bot_le (α := WithBotTop ℚ)
  · exact le_top (α := WithBotTop ℚ)
  · refine WithBotTop.coe_le_coe.2 ?_
    exact (neg_nonpos.2 (f.value_nonneg m)).trans (f.value_nonneg n)

/-! ## Integers -/

theorem exists_ofInt (hf : f.Lawful) (n : ℤ) :
    ∃ m, f.Rounds |(n : ℚ)| m ∧ f.ofInt n = f.withSign (n < 0) (min m f.infinity) := by
  obtain ⟨m, hrounds, hround⟩ := exists_rounds hf n.natAbs Nat.one_pos
  rw [Nat.cast_one, div_one, Nat.cast_natAbs, Int.cast_abs] at hrounds
  exact ⟨m, hrounds, by rw [ofInt, hround]⟩

theorem ofInt_lt (hf : f.Lawful) (n : ℤ) : f.ofInt n < 2 ^ f.width := by
  obtain ⟨m, -, hofInt⟩ := exists_ofInt hf n
  rw [hofInt]
  exact withSign_lt hf ((min_le_right _ _).trans_lt hf.infinity_lt) _

theorem signed_abs (n : ℤ) : signed (n < 0) |(n : ℚ)| = n := by
  unfold signed
  by_cases hn : n < 0
  · rw [if_pos (decide_eq_true hn), abs_of_neg (by exact_mod_cast hn), neg_neg]
  · rw [if_neg (by simpa using hn), abs_of_nonneg (by exact_mod_cast not_lt.1 hn)]

theorem nearest_ofInt (hf : f.Lawful) (n : ℤ) : f.Nearest n (f.decode (f.ofInt n)) := by
  obtain ⟨m, hrounds, hofInt⟩ := exists_ofInt hf n
  have hnearest := nearest_withSign hf hrounds (abs_nonneg _) (n < 0)
  rwa [signed_abs, ← hofInt] at hnearest

theorem ofInt_mono (hf : f.Lawful) {n n' : ℤ} (h : n ≤ n') :
    ∃ a b, position? (f.decode (f.ofInt n)) = some a ∧ position? (f.decode (f.ofInt n')) = some b ∧
      a ≤ b := by
  obtain ⟨m, hrounds, hofInt⟩ := exists_ofInt hf n
  obtain ⟨m', hrounds', hofInt'⟩ := exists_ofInt hf n'
  have hcast : (n : ℚ) ≤ n' := by exact_mod_cast h
  rw [hofInt, hofInt']
  refine ⟨_, _, position?_withSign hf _ m, position?_withSign hf _ m', ?_⟩
  by_cases hn' : n' < 0
  · -- both are negative, and the smaller one has the larger magnitude
    have hn : n < 0 := by omega
    rw [decide_eq_true hn, decide_eq_true hn']
    refine extent_true_anti (hrounds'.le_of_le hrounds ?_)
    rw [abs_of_neg (by exact_mod_cast hn'), abs_of_neg (by exact_mod_cast hn)]
    exact neg_le_neg hcast
  · rw [decide_eq_false hn']
    by_cases hn : n < 0
    · rw [decide_eq_true hn]
      exact extent_true_le_false m m'
    · rw [decide_eq_false hn]
      refine extent_false_mono (hrounds.le_of_le hrounds' ?_)
      rwa [abs_of_nonneg (by exact_mod_cast not_lt.1 hn), abs_of_nonneg (by exact_mod_cast not_lt.1 hn')]

/-- Integers of no more than the significant bits are numbers of the format. -/
theorem exists_value (hf : f.Lawful) (hn : n ≤ 2 ^ f.precision) : ∃ m, f.value m = n := by
  have hp := hf.precision
  have hmin := hf.minExp
  by_cases hzero : n = 0
  · exact ⟨0, by rw [hzero, value_zero, Nat.cast_zero]⟩
  -- `t` is the shift that brings the leading bit to the highest place
  obtain ⟨t, ht⟩ : ∃ t, t = f.precision - 1 - n.log2 := ⟨_, rfl⟩
  obtain ⟨k, hk⟩ : ∃ k : ℕ, f.minExp + k = -t := ⟨(-t - f.minExp).toNat, by omega⟩
  have hlog : 2 ^ n.log2 ≤ n := Nat.log2_self_le hzero
  have hhigh : n * 2 ^ t ≤ 2 * f.span := by
    rw [hf.two_mul_span]
    rcases le_or_gt f.precision n.log2 with hle | hlt
    · rwa [ht, show f.precision - 1 - n.log2 = 0 by omega, Nat.pow_zero, Nat.mul_one]
    · calc n * 2 ^ t ≤ 2 ^ (n.log2 + 1) * 2 ^ t := Nat.mul_le_mul_right _ Nat.lt_log2_self.le
        _ = 2 ^ f.precision := by
          rw [← Nat.pow_add]
          congr 1
          omega
  have hlow : f.span ≤ n * 2 ^ t :=
    calc f.span ≤ 2 ^ (n.log2 + t) := Nat.pow_le_pow_right two_pos (by omega)
      _ = 2 ^ n.log2 * 2 ^ t := Nat.pow_add _ _ _
      _ ≤ n * 2 ^ t := Nat.mul_le_mul_right _ hlog
  refine ⟨k * f.span + n * 2 ^ t, ?_⟩
  rw [value_mul_span_add hhigh (.inr hlow), hk, zpow_neg, zpow_natCast]
  push_cast
  exact mul_inv_cancel_right₀ (by positivity) _

theorem Lawful.two_pow_lt_overflow (hf : f.Lawful) : 2 ^ f.precision < f.overflow := by
  have hpow : (2 : ℚ) ^ 2 ≤ 2 ^ f.precision := pow_le_pow_right₀ one_le_two hf.precision
  have hunit : (2 : ℚ) ^ (1 : ℤ) ≤ 2 ^ f.topExp := zpow_le_zpow_right₀ one_le_two hf.topExp
  rw [zpow_one] at hunit
  unfold overflow largest
  nlinarith

/-- They are rounded to themselves. -/
theorem ofInt_exact (hf : f.Lawful) {n : ℤ} (hn : |n| ≤ 2 ^ f.precision) :
    ∃ s m e, f.decode (f.ofInt n) = .finite s m e ∧ signed s (m * 2 ^ e) = n := by
  obtain ⟨m, hrounds, hofInt⟩ := exists_ofInt hf n
  have hnat : n.natAbs ≤ 2 ^ f.precision := by
    zify
    exact hn
  obtain ⟨l, hl⟩ := exists_value hf hnat
  rw [Nat.cast_natAbs, Int.cast_abs] at hl
  have hvalue : |(n : ℚ)| = f.value m := by
    have hle := hrounds.abs_sub_le l
    rw [hl, sub_self, abs_zero] at hle
    exact sub_eq_zero.1 (abs_nonpos_iff.1 hle)
  rcases decode_withSign hf (n < 0) m with ⟨hle, -⟩ | ⟨-, j, e, hdecode, hj, -⟩
  · have hover := (hrounds.infinity_le_iff hf).1 hle
    have hbound : |(n : ℚ)| ≤ 2 ^ f.precision := by exact_mod_cast hn
    exact absurd (hover.trans hbound) (not_le_of_gt hf.two_pow_lt_overflow)
  · refine ⟨_, j, e, by rw [hofInt, hdecode], ?_⟩
    rw [hj, ← hvalue, signed_abs]

end Format
end SymExec.Binary

namespace SymExec.Cast

open Binary Binary.Format

variable {source dest : Ty} {sk : Kind} {f : Format}

theorem cast_int_float (hsource : source.category = .int) (hkind : source.kind = .ok sk)
    (hdest : dest = .f32 ∧ f = single ∨ dest = .f64 ∧ f = double) (p : BitVec 128) (s : Store) :
    cast (.bits p) source dest s = .ok (.ofNat (f.ofInt (Scalar.numberOf sk p))) s := by
  have hknown : known p source dest = .ok (.ofNat (f.ofInt (Scalar.numberOf sk p))) := by
    unfold known
    rcases hdest with ⟨rfl, rfl⟩ | ⟨rfl, rfl⟩
    · rw [hsource, hkind]
      rfl
    · rw [hsource, hkind]
      rfl
  change (liftM (known p source dest) : Run Store Scalar) s = _
  rw [hknown]
  rfl

/-- An integer is cast to the nearest number of the format of the destination, with an even significand
if there are two, or to the infinity of its sign from the largest number and half its last place on. Zero
is positive, the integers with as many bits as the significand are kept, and a larger integer has no
smaller number. -/
theorem cast_int_rounds (hsource : source.category = .int) (hkind : source.kind = .ok sk)
    (hdest : dest = .f32 ∧ f = single ∨ dest = .f64 ∧ f = double) {p : BitVec 128} {n : ℤ}
    (hn : sk.IsResidue p.toNat n) (s : Store) :
    cast (.bits p) source dest s = .ok (.ofNat (f.ofInt n)) s ∧ f.ofInt n < 2 ^ f.width ∧
      f.Nearest n (f.decode (f.ofInt n)) ∧ (n = 0 → f.ofInt n = 0) ∧
      (|n| ≤ 2 ^ f.precision →
        ∃ t m e, f.decode (f.ofInt n) = .finite t m e ∧ signed t (m * 2 ^ e) = n) ∧
      ∀ n', n ≤ n' → ∃ a b, position? (f.decode (f.ofInt n)) = some a ∧
        position? (f.decode (f.ofInt n')) = some b ∧ a ≤ b := by
  have hf : f.Lawful := by
    rcases hdest with ⟨-, rfl⟩ | ⟨-, rfl⟩
    · exact single_lawful
    · exact double_lawful
  refine ⟨?_, ofInt_lt hf n, nearest_ofInt hf n, ?_, ofInt_exact hf, fun n' hle => ofInt_mono hf hle⟩
  · rw [Kind.isResidue_toNat.1 hn, cast_int_float hsource hkind hdest]
  · rintro rfl
    rfl

/-- An integer that is halfway between two numbers goes to the even one. The largest integer of all types
is too large for the smaller format. -/
theorem cast_int_rounds_sample :
    (cast (.bits 0x1000001#128) (.int .w32 false false) .f32 {} = .ok (.ofNat 0x4b800000) {} ∧
      single.Nearest (0x1000001 : ℤ) (.finite false 0x800000 1)) ∧
    cast (.bits (BitVec.allOnes 128)) (.int .w128 false false) .f32 {} = .ok (.ofNat 0x7f800000) {} ∧
      single.Nearest (2 ^ 128 - 1 : ℤ) (.infinite false) := by
  have hdest : Ty.f32 = .f32 ∧ single = single ∨ Ty.f32 = .f64 ∧ single = double := .inl ⟨rfl, rfl⟩
  constructor
  · have hint : (Ty.int .w32 false false).category = .int := rfl
    have hn : (Kind.int .w32 false).IsResidue (0x1000001#128).toNat 0x1000001 := by
      rw [Kind.isResidue_toNat]
      decide
    obtain ⟨hcast, -, hnearest, -⟩ := cast_int_rounds hint rfl hdest hn {}
    have hround : single.ofInt 0x1000001 = 0x4b800000 := by decide
    have hdecode : single.decode 0x4b800000 = .finite false 0x800000 1 := by decide
    rw [hround] at hcast hnearest
    rw [hdecode] at hnearest
    exact ⟨hcast, hnearest⟩
  · have hint : (Ty.int .w128 false false).category = .int := rfl
    have hn : (Kind.int .w128 false).IsResidue (BitVec.allOnes 128).toNat (2 ^ 128 - 1) := by
      rw [Kind.isResidue_toNat]
      decide
    obtain ⟨hcast, -, hnearest, -⟩ := cast_int_rounds hint rfl hdest hn {}
    have hround : single.ofInt (2 ^ 128 - 1) = 0x7f800000 := by decide
    have hdecode : single.decode 0x7f800000 = .infinite false := by decide
    rw [hround] at hcast hnearest
    rw [hdecode] at hnearest
    exact ⟨hcast, hnearest⟩

end SymExec.Cast

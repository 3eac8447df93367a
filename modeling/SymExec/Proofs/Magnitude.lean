import SymExec.Binary.Format
import Mathlib.Algebra.Order.Field.Power
import Mathlib.Algebra.Order.Field.Rat
import Mathlib.Data.Rat.Cast.Order
import Mathlib.Tactic.FieldSimp
import Mathlib.Tactic.Linarith
import Mathlib.Tactic.Positivity
import Mathlib.Tactic.Ring

/-!
# The nearest magnitude

The finite numbers of a binary format are in the order of their magnitudes, and the magnitudes count
units in the last place (`Format.value_mul_span_add`, `Format.value_strictMono`). So to round a positive
number is to find the midpoints between which it lies, and on a midpoint the even magnitude
(`Format.Rounds`). No other magnitude is nearer then, and larger numbers have larger magnitudes.
`Format.round` does this for every quotient of integers, and it cuts the result at infinity
(`Format.exists_rounds`).
-/
namespace SymExec.Binary

open Nat

attribute [local instance(2000)] instPowNat

variable {x y : ℚ}

/-! ## The nearest integer -/

/-- An integer that is at most one half off, and by one half only if it is even. -/
structure IsNearest (x : ℚ) (u : ℕ) : Prop where
  lower : u - 1 / 2 ≤ x
  even_of_lower : x = u - 1 / 2 → Even u
  upper : x ≤ u + 1 / 2
  even_of_upper : x = u + 1 / 2 → Even u

theorem isNearest_nearestEven {num den : ℕ} (hden : 0 < den) (hx : (num : ℚ) / den = x) :
    IsNearest x (nearestEven num den) := by
  have hpos : (0 : ℚ) < den := by exact_mod_cast hden
  -- the quotient is its whole part and a fraction `t`
  obtain ⟨t, ht⟩ : ∃ t : ℚ, t = (num % den : ℕ) / den := ⟨_, rfl⟩
  have hwhole : x = (num / den : ℕ) + t := by
    have hsum : (num : ℚ) = den * (num / den : ℕ) + (num % den : ℕ) := by
      exact_mod_cast (div_add_mod num den).symm
    rw [← hx, ht, hsum, add_div, mul_div_cancel_left₀ _ hpos.ne']
  have hlow : 0 ≤ t := by
    rw [ht]
    positivity
  have hhigh : t < 1 := by
    rw [ht, div_lt_one hpos]
    exact_mod_cast mod_lt num hden
  have hhalf : 2 * (num % den) < den ↔ t < 1 / 2 := by
    rw [ht, div_lt_div_iff₀ hpos two_pos, ← cast_lt (α := ℚ)]
    push_cast
    constructor <;> intro h <;> linarith
  have htie : 2 * (num % den) = den ↔ t = 1 / 2 := by
    rw [ht, div_eq_div_iff hpos.ne' two_ne_zero, ← cast_inj (R := ℚ)]
    push_cast
    constructor <;> intro h <;> linarith
  subst hwhole
  unfold nearestEven
  simp only [hhalf, htie]
  split_ifs with h
  · -- the fraction is below one half, or it is one half and the whole part is even
    have hle : t ≤ 1 / 2 := by
      rcases h with h | ⟨h, -⟩
      · exact h.le
      · exact h.le
    refine ⟨by linarith, fun htie => by linarith, by linarith, fun htie => ?_⟩
    rcases h with h | ⟨-, h⟩
    · linarith
    · exact even_iff.2 h
  · have hle : 1 / 2 ≤ t := le_of_not_gt fun hlt => h (.inl hlt)
    have hnext : ((num / den + 1 : ℕ) : ℚ) = (num / den : ℕ) + 1 := cast_succ _
    refine ⟨by linarith, fun htie => ?_, by linarith, fun htie => by linarith⟩
    have hodd : (num / den) % 2 ≠ 0 := fun heven => h (.inr ⟨by linarith, heven⟩)
    rw [even_iff]
    omega

theorem IsNearest.le_of_le {u a : ℕ} (h : IsNearest x u) (ha : (a : ℚ) ≤ x) : a ≤ u := by
  have hlt : (a : ℚ) < u + 1 := by linarith [h.upper]
  exact Nat.lt_succ_iff.1 (by exact_mod_cast hlt)

theorem IsNearest.le_of_lt {u b : ℕ} (h : IsNearest x u) (hb : x < b) : u ≤ b := by
  have hlt : (u : ℚ) < b + 1 := by linarith [h.lower]
  exact Nat.lt_succ_iff.1 (by exact_mod_cast hlt)

namespace Format

/-! ## The leading bit -/

theorem log2_bounds {n : ℕ} (h : n ≠ 0) :
    (2 : ℚ) ^ (n.log2 : ℤ) ≤ n ∧ (n : ℚ) < 2 ^ (n.log2 + 1 : ℤ) := by
  constructor
  · rw [zpow_natCast]
    exact_mod_cast log2_self_le h
  · have hlt : n < 2 ^ (n.log2 + 1) := lt_log2_self
    exact_mod_cast hlt

/-- A positive rational lies between two to the exponent of its leading bit and twice that. -/
theorem leadingExp_bounds {num den : ℕ} (hnum : num ≠ 0) (hden : den ≠ 0) :
    (2 : ℚ) ^ leadingExp num den ≤ num / den ∧ (num / den : ℚ) < 2 ^ (leadingExp num den + 1) := by
  obtain ⟨hnumLow, hnumHigh⟩ := log2_bounds hnum
  obtain ⟨hdenLow, hdenHigh⟩ := log2_bounds hden
  have hpos : (0 : ℚ) < den := by exact_mod_cast pos_of_ne_zero hden
  obtain ⟨e, he⟩ : ∃ e : ℤ, e = (num.log2 : ℤ) - den.log2 := ⟨_, rfl⟩
  have hfits : (if 0 ≤ e then den * 2 ^ e.toNat ≤ num else den ≤ num * 2 ^ (-e).toNat) ↔
      (2 : ℚ) ^ e ≤ num / den := by
    rw [le_div_iff₀ hpos]
    split_ifs with hsign
    · obtain ⟨n, rfl⟩ := Int.eq_ofNat_of_zero_le hsign
      rw [Int.toNat_natCast, zpow_natCast, mul_comm den, ← cast_le (α := ℚ)]
      push_cast
      rfl
    · obtain ⟨n, hn⟩ := Int.eq_ofNat_of_zero_le (a := -e) (by omega)
      rw [hn, Int.toNat_natCast, ← neg_neg e, hn, zpow_neg, zpow_natCast,
        inv_mul_le_iff₀ (by positivity), mul_comm num, ← cast_le (α := ℚ)]
      push_cast
      rfl
  have hlead : leadingExp num den =
      if (if 0 ≤ e then den * 2 ^ e.toNat ≤ num else den ≤ num * 2 ^ (-e).toNat) then e else e - 1 := by
    rw [he]
    rfl
  rw [hlead]
  simp only [hfits]
  split_ifs with h
  · refine ⟨h, ?_⟩
    rw [div_lt_iff₀ hpos]
    calc (num : ℚ) < 2 ^ (num.log2 + 1 : ℤ) := hnumHigh
      _ = 2 ^ (e + 1) * 2 ^ (den.log2 : ℤ) := by
        rw [← zpow_add₀ two_ne_zero, he]
        congr 1
        ring
      _ ≤ 2 ^ (e + 1) * den := by gcongr
  · rw [sub_add_cancel]
    refine ⟨?_, lt_of_not_ge h⟩
    rw [le_div_iff₀ hpos]
    calc (2 : ℚ) ^ (e - 1) * den ≤ 2 ^ (e - 1) * 2 ^ (den.log2 + 1 : ℤ) := by gcongr
      _ = 2 ^ (num.log2 : ℤ) := by
        rw [← zpow_add₀ two_ne_zero, he]
        congr 1
        ring
      _ ≤ num := hnumLow

/-! ## Magnitudes as numbers -/

variable {f : Format}

/-- How many magnitudes have the same exponent. -/
def span (f : Format) : ℕ := 2 ^ (f.precision - 1)

theorem span_pos (f : Format) : 0 < f.span := Nat.two_pow_pos _

/-- The number of a magnitude, as if there were no largest exponent. -/
def value (f : Format) (m : ℕ) : ℚ :=
  if m / f.span = 0 then (m % f.span : ℕ) * 2 ^ f.minExp
  else (m % f.span + f.span : ℕ) * 2 ^ (f.minExp + (m / f.span : ℕ) - 1)

/-- Magnitudes count the last places of their numbers. -/
theorem value_mul_span_add {k j : ℕ} (hj : j ≤ 2 * f.span) (hk : k = 0 ∨ f.span ≤ j) :
    f.value (k * f.span + j) = j * 2 ^ (f.minExp + k) := by
  have hspan := f.span_pos
  unfold value
  rcases lt_or_ge j f.span with hlt | hle
  · obtain rfl : k = 0 := by omega
    rw [zero_mul, zero_add, div_eq_of_lt hlt, mod_eq_of_lt hlt, if_pos rfl, cast_zero,
      add_zero]
  · obtain ⟨i, rfl⟩ := Nat.exists_eq_add_of_le hle
    rcases lt_or_eq_of_le (show i ≤ f.span by omega) with hlt | rfl
    · have hsum : k * f.span + (f.span + i) = i + f.span * (k + 1) := by ring
      rw [hsum, add_mul_div_left _ _ hspan, add_mul_mod_self_left, div_eq_of_lt hlt,
        mod_eq_of_lt hlt, if_neg (by omega), add_comm i]
      congr 2
      push_cast
      ring
    · -- the last number with an exponent and one more place has the next exponent
      have hsum : k * f.span + (f.span + f.span) = f.span * (k + 2) := by ring
      rw [hsum, Nat.mul_div_cancel_left _ hspan, Nat.mul_mod_right, if_neg (by omega), zero_add]
      have hexp : f.minExp + ((k + 2 : ℕ) : ℤ) - 1 = f.minExp + k + 1 := by
        push_cast
        ring
      rw [hexp, zpow_add_one₀ two_ne_zero]
      push_cast
      ring

/-- Each magnitude counts so many last places. -/
theorem exists_places (f : Format) (m : ℕ) :
    ∃ k j, m = k * f.span + j ∧ j < 2 * f.span ∧ (k = 0 ∨ f.span ≤ j) := by
  have hspan := f.span_pos
  have hdiv := div_add_mod m f.span
  have hmod := mod_lt m hspan
  cases hk : m / f.span with
  | zero =>
    rw [hk] at hdiv
    exact ⟨0, m, by ring, by omega, .inl rfl⟩
  | succ k =>
    rw [hk] at hdiv
    refine ⟨k, f.span + m % f.span, ?_, by omega, .inr (by omega)⟩
    rw [← hdiv, mul_add_mod_self_left, mod_mod]
    ring

theorem value_zero (f : Format) : f.value 0 = 0 := by simp [value]

theorem value_strictMono (f : Format) : StrictMono f.value := by
  refine strictMono_nat_of_lt_succ fun m => ?_
  obtain ⟨k, j, rfl, hj, hk⟩ := f.exists_places m
  rw [add_assoc, value_mul_span_add hj.le hk, value_mul_span_add hj (by omega)]
  push_cast
  have hpos : (0 : ℚ) < 2 ^ (f.minExp + k) := by positivity
  linarith

theorem value_nonneg (f : Format) (m : ℕ) : 0 ≤ f.value m :=
  f.value_zero ▸ f.value_strictMono.monotone (zero_le m)

/-- The number halfway between a magnitude and the next. -/
def midpoint (f : Format) (m : ℕ) : ℚ := (f.value m + f.value (m + 1)) / 2

theorem midpoint_strictMono (f : Format) : StrictMono f.midpoint := by
  intro a b hab
  have hlow := f.value_strictMono hab
  have hhigh := f.value_strictMono (succ_lt_succ hab)
  unfold midpoint
  linarith

/-! ## The nearest magnitude -/

/-- A number between the midpoints around a magnitude; it is one of them only if the magnitude is
even. -/
structure Rounds (f : Format) (x : ℚ) (m : ℕ) : Prop where
  lower : ∀ l, m = l + 1 → f.midpoint l ≤ x
  even_of_lower : ∀ l, m = l + 1 → x = f.midpoint l → Even m
  upper : x ≤ f.midpoint m
  even_of_upper : x = f.midpoint m → Even m

namespace Rounds

variable {m n : ℕ}

theorem lower_of_lt (h : f.Rounds x m) (hlt : n < m) : f.value n + f.value m ≤ 2 * x := by
  obtain ⟨l, rfl⟩ : ∃ l, m = l + 1 := ⟨m - 1, by omega⟩
  have hmid := h.lower l rfl
  have hle := f.value_strictMono.monotone (Nat.lt_succ_iff.1 hlt)
  unfold midpoint at hmid
  linarith

theorem upper_of_lt (h : f.Rounds x m) (hlt : m < n) : 2 * x ≤ f.value m + f.value n := by
  have hmid := h.upper
  have hle := f.value_strictMono.monotone (succ_le_iff.2 hlt)
  unfold midpoint at hmid
  linarith

/-- No other magnitude is nearer. -/
theorem abs_sub_le (h : f.Rounds x m) (n : ℕ) : |x - f.value m| ≤ |x - f.value n| := by
  rcases lt_trichotomy n m with hlt | rfl | hlt
  · have hsum := h.lower_of_lt hlt
    have hvalue := f.value_strictMono hlt
    rw [abs_of_nonneg (show 0 ≤ x - f.value n by linarith), abs_le]
    exact ⟨by linarith, by linarith⟩
  · exact le_rfl
  · have hsum := h.upper_of_lt hlt
    have hvalue := f.value_strictMono hlt
    rw [abs_of_nonpos (show x - f.value n ≤ 0 by linarith), abs_le]
    exact ⟨by linarith, by linarith⟩

/-- If another magnitude is as near, the nearest one is even. -/
theorem even_of_abs_eq (h : f.Rounds x m) (hne : n ≠ m) (htie : |x - f.value m| = |x - f.value n|) :
    Even m := by
  have hvalue : f.value n ≠ f.value m := f.value_strictMono.injective.ne hne
  have hsum : 2 * x = f.value m + f.value n := by
    rcases abs_eq_abs.1 htie with heq | heq
    · exact absurd (by linarith) hvalue
    · linarith
  rcases hne.lt_or_gt with hlt | hlt
  · obtain ⟨l, rfl⟩ : ∃ l, m = l + 1 := ⟨m - 1, by omega⟩
    have hmid := h.lower l rfl
    have hle := f.value_strictMono.monotone (Nat.lt_succ_iff.1 hlt)
    refine h.even_of_lower l rfl (le_antisymm ?_ hmid)
    unfold midpoint
    linarith
  · have hle := f.value_strictMono.monotone (succ_le_iff.2 hlt)
    refine h.even_of_upper (le_antisymm h.upper ?_)
    unfold midpoint
    linarith

/-- An even magnitude is reached from the midpoint before it on. -/
theorem succ_le_iff (h : f.Rounds x m) (heven : Even (n + 1)) : n + 1 ≤ m ↔ f.midpoint n ≤ x := by
  constructor
  · intro hle
    obtain ⟨l, rfl⟩ : ∃ l, m = l + 1 := ⟨m - 1, by omega⟩
    exact (f.midpoint_strictMono.monotone (succ_le_succ_iff.1 hle)).trans (h.lower l rfl)
  · intro hle
    by_contra hlt
    -- only the odd magnitude just before it has a midpoint as large
    have hm : m ≤ n := by omega
    have heq : x = f.midpoint m := le_antisymm h.upper ((f.midpoint_strictMono.monotone hm).trans hle)
    have hnot : n ≤ m := f.midpoint_strictMono.le_iff_le.1 (hle.trans h.upper)
    obtain rfl : m = n := le_antisymm hm hnot
    exact (even_add_one.1 heven) (h.even_of_upper heq)

theorem le_of_le (h : f.Rounds x m) (h' : f.Rounds y n) (hxy : x ≤ y) : m ≤ n := by
  by_contra hlt
  obtain ⟨l, rfl⟩ : ∃ l, m = l + 1 := ⟨m - 1, by omega⟩
  have hl : n ≤ l := by omega
  have hlower := h.lower l rfl
  have hupper := h'.upper
  have hmid := f.midpoint_strictMono.monotone hl
  -- both are the midpoint between two neighbours, which are not both even
  obtain rfl : l = n := le_antisymm (f.midpoint_strictMono.le_iff_le.1 (by linarith)) hl
  have heven := h.even_of_lower l rfl (by linarith)
  have heven' := h'.even_of_upper (by linarith)
  exact (even_add_one.1 heven) heven'

end Rounds

/-! ## Rounding -/

/-- The exponent of the largest numbers. -/
def topExp (f : Format) : ℤ := f.minExp + (2 ^ (f.width - f.precision) : ℕ) - 3

/-- A format has a fraction and more than one exponent of normal numbers, and the integers with as many
bits as its numbers are among them. -/
structure Lawful (f : Format) : Prop where
  precision : 2 ≤ f.precision
  width : f.precision + 2 ≤ f.width
  minExp : f.minExp ≤ 1 - f.precision
  topExp : 1 ≤ f.topExp

theorem single_lawful : single.Lawful := ⟨by decide, by decide, by decide, by decide⟩

theorem double_lawful : double.Lawful := ⟨by decide, by decide, by decide, by decide⟩

theorem Lawful.even_span (hf : f.Lawful) : Even f.span := by
  have hp := hf.precision
  refine (even_pow.2 ⟨even_two, ?_⟩ : Even (2 ^ (f.precision - 1)))
  omega

theorem Lawful.two_mul_span (hf : f.Lawful) : 2 * f.span = 2 ^ f.precision := by
  have hp := hf.precision
  rw [span, ← pow_succ', show (f.precision - 1).succ = f.precision by omega]

section Places

variable {k u : ℕ}

/-- The midpoint above is half a place on, unless the next number has larger places: then numbers of this
exponent lie below it. -/
theorem midpoint_above (hle : u ≤ 2 * f.span) (hnormal : k = 0 ∨ f.span ≤ u)
    (hlt : y < (2 * f.span : ℕ)) : y * 2 ^ (f.minExp + k) < f.midpoint (k * f.span + u) ∨
      f.midpoint (k * f.span + u) = (u + 1 / 2) * 2 ^ (f.minExp + k) := by
  unfold midpoint
  rw [value_mul_span_add hle hnormal]
  rcases hle.lt_or_eq with hin | rfl
  · refine .inr ?_
    rw [add_assoc, value_mul_span_add hin (by omega)]
    push_cast
    ring
  · have hnext := f.value_strictMono (lt_succ_self (k * f.span + 2 * f.span))
    rw [value_mul_span_add hle hnormal] at hnext
    have hlow : y * 2 ^ (f.minExp + k) < (2 * f.span : ℕ) * 2 ^ (f.minExp + k) := by gcongr
    exact .inl (by linarith)

/-- The midpoint below is half a place back, unless the number before has smaller places: then numbers of
this exponent lie above it. -/
theorem midpoint_below (hle : u ≤ 2 * f.span) (hnormal : k = 0 ∨ f.span ≤ u)
    (hk : k = 0 ∨ (f.span : ℚ) ≤ y) {l : ℕ} (hl : k * f.span + u = l + 1) :
    f.midpoint l < y * 2 ^ (f.minExp + k) ∨ f.midpoint l = (u - 1 / 2) * 2 ^ (f.minExp + k) := by
  unfold midpoint
  rw [← hl, value_mul_span_add hle hnormal]
  by_cases hin : k = 0 ∨ f.span < u
  · have hpos : 1 ≤ u := by
      rcases hin with rfl | hin
      · omega
      · omega
    have hprev : l = k * f.span + (u - 1) := by omega
    refine .inr ?_
    rw [hprev, value_mul_span_add (by omega) (by omega), cast_sub hpos]
    push_cast
    ring
  · have hprev := f.value_strictMono (lt_succ_self l)
    rw [succ_eq_add_one, ← hl, value_mul_span_add hle hnormal] at hprev
    have hfirst : u = f.span := by omega
    have hlow : (u : ℚ) * 2 ^ (f.minExp + k) ≤ y * 2 ^ (f.minExp + k) := by
      rw [hfirst]
      gcongr
      exact hk.resolve_left fun h => hin (.inl h)
    exact .inl (by linarith)

/-- The integer nearest to a number of last places gives the nearest magnitude. -/
theorem rounds_of_isNearest (hf : f.Lawful) (hu : IsNearest y u) (hlt : y < (2 * f.span : ℕ))
    (hk : k = 0 ∨ (f.span : ℚ) ≤ y) : f.Rounds (y * 2 ^ (f.minExp + k)) (k * f.span + u) := by
  have hpos : (0 : ℚ) < 2 ^ (f.minExp + k) := by positivity
  have hle : u ≤ 2 * f.span := hu.le_of_lt hlt
  have hnormal : k = 0 ∨ f.span ≤ u := hk.imp_right hu.le_of_le
  have heven (h : Even u) : Even (k * f.span + u) := (hf.even_span.mul_left k).add h
  refine ⟨fun l hl => ?_, fun l hl htie => ?_, ?_, fun htie => ?_⟩
  · rcases midpoint_below hle hnormal hk hl with h | h
    · exact h.le
    · rw [h]
      gcongr
      exact hu.lower
  · rcases midpoint_below hle hnormal hk hl with h | h
    · exact absurd htie h.ne'
    · exact heven (hu.even_of_lower (mul_right_cancel₀ hpos.ne' (htie.trans h)))
  · rcases midpoint_above hle hnormal hlt with h | h
    · exact h.le
    · rw [h]
      gcongr
      exact hu.upper
  · rcases midpoint_above hle hnormal hlt with h | h
    · exact absurd htie h.ne
    · exact heven (hu.even_of_upper (mul_right_cancel₀ hpos.ne' (htie.trans h)))

end Places

theorem rounds_zero (f : Format) : f.Rounds 0 0 := by
  refine ⟨fun l hl => ?_, fun l hl => ?_, ?_, fun _ => ⟨0, rfl⟩⟩
  · cases hl
  · cases hl
  · have hnonneg := f.value_nonneg (0 + 1)
    unfold midpoint
    rw [value_zero]
    linarith

theorem isNearest_places {num den : ℕ} (hden : 0 < den) (k : ℤ) :
    IsNearest (num / den / 2 ^ k : ℚ)
      (if 0 ≤ k then nearestEven num (den * 2 ^ k.toNat)
        else nearestEven (num * 2 ^ (-k).toNat) den) := by
  split_ifs with hk
  · obtain ⟨n, rfl⟩ := Int.eq_ofNat_of_zero_le hk
    refine isNearest_nearestEven (Nat.mul_pos hden (Nat.two_pow_pos _)) ?_
    rw [Int.toNat_natCast, zpow_natCast, div_div]
    push_cast
    rfl
  · obtain ⟨n, hn⟩ := Int.eq_ofNat_of_zero_le (a := -k) (by omega)
    obtain rfl : k = -n := by omega
    refine isNearest_nearestEven hden ?_
    rw [neg_neg, Int.toNat_natCast, zpow_neg, zpow_natCast, div_inv_eq_mul, div_mul_eq_mul_div]
    push_cast
    rfl

/-- The nearest magnitude is found, and cut at infinity. -/
theorem exists_rounds (hf : f.Lawful) (num : ℕ) {den : ℕ} (hden : 0 < den) :
    ∃ m, f.Rounds (num / den) m ∧ f.round num den = min m f.infinity := by
  by_cases hnum : num = 0
  · subst hnum
    refine ⟨0, ?_, ?_⟩
    · rw [cast_zero, zero_div]
      exact f.rounds_zero
    · rw [round, if_pos rfl, zero_min]
  · obtain ⟨k, hk⟩ : ∃ k, k = f.lastPlace num den := ⟨_, rfl⟩
    obtain ⟨hlow, hhigh⟩ := leadingExp_bounds hnum hden.ne'
    have hlast : k = max f.minExp (leadingExp num den - (f.precision - 1)) := hk
    have hplaces : f.minExp + ((k - f.minExp).toNat : ℤ) = k := by omega
    have hpos : (0 : ℚ) < 2 ^ k := by positivity
    have hprecision := hf.precision
    refine ⟨_, ?_, by rw [round, if_neg hnum, ← hk]⟩
    have hnearest : IsNearest (num / den / 2 ^ k : ℚ) _ := isNearest_places hden k
    have hrounds := rounds_of_isNearest hf (k := (k - f.minExp).toNat) hnearest ?_ ?_
    · rwa [hplaces, div_mul_cancel₀ _ hpos.ne'] at hrounds
    · rw [div_lt_iff₀ hpos, hf.two_mul_span]
      refine hhigh.trans_le ?_
      push_cast
      rw [← zpow_natCast, ← zpow_add₀ two_ne_zero]
      exact zpow_le_zpow_right₀ one_le_two (by omega)
    · by_cases hmin : k = f.minExp
      · exact .inl (by omega)
      · refine .inr ?_
        rw [le_div_iff₀ hpos, span]
        push_cast
        rw [← zpow_natCast, ← zpow_add₀ two_ne_zero]
        refine le_trans (zpow_le_zpow_right₀ one_le_two ?_) hlow
        omega

end Format
end SymExec.Binary

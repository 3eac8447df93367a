import SymExec.Term
import Mathlib.Tactic.Ring

/-!
# Values of cells and terms

The value of a term depends on its symbolic bytes only (`Term.eval_congr`), and a condition holds as
its connectives say. Cells spell their number in base 256 (`Cell.valueOf_lt`, `Cell.valueOf_ofNat`).
-/
namespace SymExec

variable {v v' : Valuation}

namespace Cell

variable {cs : List Cell}

@[simp] theorem eval_known (v : Valuation) (b : BitVec 8) : (known b).eval v = b := rfl

@[simp] theorem eval_symbol (v : Valuation) (i : Nat) : (symbol i).eval v = v i := rfl

@[simp] theorem symbols_nil : symbols [] = [] := rfl

@[simp] theorem symbols_known (b : BitVec 8) (cs : List Cell) :
    symbols (known b :: cs) = symbols cs := rfl

@[simp] theorem symbols_symbol (i : Nat) (cs : List Cell) :
    symbols (symbol i :: cs) = i :: symbols cs := rfl

theorem valueOf_congr (h : ∀ i ∈ symbols cs, v i = v' i) : valueOf v cs = valueOf v' cs := by
  induction cs with
  | nil => rfl
  | cons c cs ih =>
    cases c with
    | known b => simp only [valueOf, eval_known, ih h]
    | symbol i =>
      have hi := h i (by simp)
      have hs := ih fun j hj => h j (by simp [hj])
      simp only [valueOf, eval_symbol, hi, hs]

theorem valueOf_lt (v : Valuation) (cs : List Cell) : valueOf v cs < 256 ^ cs.length := by
  induction cs with
  | nil => simp [valueOf]
  | cons c cs ih =>
    have hc := (c.eval v).isLt
    simp only [valueOf, List.length_cons, Nat.pow_succ]
    omega

@[simp] theorem length_ofNat (value n : Nat) : (ofNat value n).length = n := by
  induction n generalizing value with
  | zero => rfl
  | succ n ih => simp [ofNat, ih]

/-- The low bytes of a number spell the number up to their width. -/
theorem valueOf_ofNat (v : Valuation) (value n : Nat) :
    valueOf v (ofNat value n) = value % 256 ^ n := by
  induction n generalizing value with
  | zero => simp [ofNat, valueOf, Nat.mod_one]
  | succ n ih =>
    simp only [ofNat, valueOf, eval_known, BitVec.toNat_ofNat, ih]
    rw [Nat.pow_succ 256 n, Nat.mul_comm (256 ^ n) 256, Nat.mod_mul]

theorem valueOf_append (v : Valuation) (cs ds : List Cell) :
    valueOf v (cs ++ ds) = valueOf v cs + 256 ^ cs.length * valueOf v ds := by
  induction cs with
  | nil => simp [valueOf]
  | cons c cs ih =>
    simp only [List.cons_append, valueOf, ih, List.length_cons]
    ring

/-- Digit `k` of the number that cells spell is the value of cell `k`. -/
theorem ofNat_valueOf_div (v : Valuation) {k : Nat} {c : Cell} (h : cs[k]? = some c) :
    BitVec.ofNat 8 (valueOf v cs / 256 ^ k) = c.eval v := by
  induction cs generalizing k with
  | nil => simp at h
  | cons d cs ih =>
    have hd := (d.eval v).isLt
    cases k with
    | zero =>
      cases h
      apply BitVec.eq_of_toNat_eq
      simp only [valueOf, Nat.pow_zero, Nat.div_one, BitVec.toNat_ofNat]
      omega
    | succ k =>
      have hdiv : valueOf v (d :: cs) / 256 = valueOf v cs := by
        simp only [valueOf]
        omega
      rw [Nat.pow_succ', ← Nat.div_div_eq_div_mul, hdiv]
      exact ih h

end Cell

namespace Term

variable {w : Nat} {c : Condition}

/-- The value of a term depends on its symbolic bytes only. -/
theorem eval_congr (t : Term w) (h : ∀ i ∈ t.symbols, v i = v' i) : t.eval v = t.eval v' := by
  induction t with
  | const => rfl
  | word w cs => simp only [eval, Cell.valueOf_congr h]
  | zeroExtend _ _ ih | signExtend _ _ ih | count _ _ ih | not _ ih => simp only [eval, ih h]
  | binary _ _ _ ihs iht | relation _ _ _ ihs iht | and _ _ ihs iht =>
    simp only [symbols, List.mem_append] at h
    simp only [eval, ihs fun i hi => h i (.inl hi), iht fun i hi => h i (.inr hi)]
  | choose _ _ _ ihc ihy ihn =>
    simp only [symbols, List.mem_append] at h
    simp only [eval, ihc fun i hi => h i (.inl (.inl hi)), ihy fun i hi => h i (.inl (.inr hi)),
      ihn fun i hi => h i (.inr hi)]

theorem holds_congr (h : ∀ i ∈ c.symbols, v i = v' i) : c.holds v = c.holds v' := by
  rw [holds, holds, eval_congr c h]

/-! ## Conditions -/

theorem eq_one_or_zero (b : BitVec 1) : b = 1#1 ∨ b = 0#1 := by
  have := b.isLt
  rcases Nat.lt_or_ge b.toNat 1 with h | h
  · exact .inr (BitVec.eq_of_toNat_eq (by simp; omega))
  · exact .inl (BitVec.eq_of_toNat_eq (by simp; omega))

@[simp] theorem holds_always (v : Valuation) : holds v always := rfl

@[simp] theorem holds_not (v : Valuation) (c : Condition) : holds v (not c) = !holds v c := by
  rcases eq_one_or_zero (c.eval v) with h | h <;> simp [holds, eval, h]

@[simp] theorem holds_and (v : Valuation) (c d : Condition) :
    holds v (and c d) = (holds v c && holds v d) := by
  rcases eq_one_or_zero (c.eval v) with h | h <;> rcases eq_one_or_zero (d.eval v) with h' | h' <;>
    simp [holds, eval, h, h']

@[simp] theorem holds_relation (v : Valuation) (rel : WordRel) (s t : Term w) :
    holds v (relation rel s t) = rel.eval (s.eval v) (t.eval v) := by
  cases h : rel.eval (s.eval v) (t.eval v) <;> simp [holds, eval, h]

@[simp] theorem holds_equal (v : Valuation) (s t : Term w) :
    holds v (equal s t) = (s.eval v == t.eval v) := by
  simp only [equal, holds_relation, WordRel.eval]

@[simp] theorem holds_differ (v : Valuation) (s t : Term w) :
    holds v (differ s t) = (s.eval v != t.eval v) := by
  simp only [differ, holds_not, holds_equal, bne]

@[simp] theorem holds_all (v : Valuation) (cs : List Condition) :
    holds v (all cs) = cs.all fun c => c.holds v := by
  fun_induction all cs with
  | case1 => rfl
  | case2 c => simp
  | case3 c cs _ ih => rw [holds_and, ih, List.all_cons]

theorem eval_of_holds : c.eval v = BitVec.ofBool (c.holds v) := by
  rcases eq_one_or_zero (c.eval v) with h | h <;> simp [holds, h]

theorem mem_symbols_all {i : Nat} {cs : List Condition} :
    i ∈ (all cs).symbols ↔ ∃ c ∈ cs, i ∈ c.symbols := by
  fun_induction all cs with
  | case1 => simp [always, symbols]
  | case2 c => simp
  | case3 c cs _ ih => simp [symbols, ih]

end Term
end SymExec

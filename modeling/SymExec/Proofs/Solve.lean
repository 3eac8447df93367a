import SymExec.Sat.Solve

/-!
# What the solver's answers mean

A formula that the solver refutes has no model (`eval_of_refuted`): its derivation was checked, and
the way from the formula to the clauses keeps satisfiability. Facts may be left out of a formula
(`eval_withFacts`). The search by trial finds the least number there is (`leastBelow_eq_none`,
`leastBelow_eq_some`).
-/
namespace SymExec.Sat

open Std.Sat
open Std.Tactic.BVDecide

/-! ## Formulas -/

theorem eval_of_refuted {f : BVLogicalExpr} {order : List BVBit} (h : solve f order = .refuted)
    (a : BVExpr.Assignment) : f.eval a = false := by
  unfold solve at h
  split at h
  rename_i entry atoms hrelabel
  have hentry : f.bitblast.relabelNat = entry := congrArg Prod.fst hrelabel
  dsimp only at h
  split at h
  · cases h
  · split at h
    · rename_i hcheck
      have hclauses := LRAT.check_sound _ _ hcheck
      rw [AIG.toCNF_equisat, ← hentry, AIG.Entrypoint.relabelNat_unsat_iff] at hclauses
      exact BVLogicalExpr.unsat_of_bitblast f hclauses a
    · cases h
  · cases h

theorem eval_isOne (e : BVExpr 1) (a : BVExpr.Assignment) :
    (isOne e).eval a = (e.eval a == 1#1) := rfl

/-- Facts that are one change no value of a formula. -/
theorem eval_withFacts {facts : List (BVExpr 1)} {f : BVLogicalExpr} {a : BVExpr.Assignment}
    (h : ∀ fact ∈ facts, fact.eval a = 1#1) : (withFacts facts f).eval a = f.eval a := by
  unfold withFacts
  induction facts generalizing f with
  | nil => rfl
  | cons fact facts ih =>
    rw [List.foldl_cons, ih fun e he => h e (List.mem_cons_of_mem _ he)]
    have hfact : (isOne fact).eval a := by
      rw [eval_isOne, h fact List.mem_cons_self]
      rfl
    rw [BVLogicalExpr.eval_gate, hfact]
    exact Bool.and_true _

/-! ## Assignments -/

/-- The assignment that gives each variable up to `n` its byte. -/
def bytesUpTo (v : Nat → BitVec 8) : (n : Nat) → BVExpr.Assignment
  | 0 => .leaf ⟨v 0⟩
  | n + 1 => .branch (n + 1) (bytesUpTo v n) (.leaf ⟨v (n + 1)⟩)

theorem get_branch (p i : Nat) (l r : BVExpr.Assignment) :
    BVExpr.Assignment.get (.branch p l r) i = if p ≤ i then r.get i else l.get i := by
  change Bool.rec (motive := fun _ => BVExpr.PackedBitVec) (l.get i) (r.get i) (p.ble i) = _
  by_cases h : p ≤ i
  · rw [if_pos h, Nat.ble_eq_true_of_le h]
  · have hble : p.ble i = false := by
      rw [← Bool.not_eq_true]
      exact fun e => h (Nat.le_of_ble_eq_true e)
    rw [if_neg h, hble]

theorem get_bytesUpTo (v : Nat → BitVec 8) {i n : Nat} (h : i ≤ n) :
    (bytesUpTo v n).get i = ⟨v i⟩ := by
  induction n with
  | zero =>
    obtain rfl : i = 0 := by omega
    rfl
  | succ n ih =>
    rw [bytesUpTo, get_branch]
    split
    · obtain rfl : i = n + 1 := by omega
      rfl
    · exact ih (by omega)

theorem eval_var_bytesUpTo (v : Nat → BitVec 8) {i n : Nat} (h : i ≤ n) :
    (BVExpr.var i : BVExpr 8).eval (bytesUpTo v n) = v i := by
  rw [BVExpr.eval_var, get_bytesUpTo v h]
  exact BitVec.setWidth_eq _

/-! ## Trial -/

theorem leastBelow_eq_none {p : Nat → Bool} {n : Nat} :
    leastBelow p n = none ↔ ∀ k < n, p k = false := by
  induction n with
  | zero => simp [leastBelow]
  | succ n ih =>
    unfold leastBelow
    cases hn : leastBelow p n with
    | some k =>
      have hk : ¬ ∀ k < n, p k = false := by simp [← ih, hn]
      simp only [reduceCtorEq, false_iff]
      intro h
      exact hk fun k hkn => h k (by omega)
    | none =>
      have hall := ih.1 hn
      constructor
      · intro h k hk
        rcases Nat.lt_or_eq_of_le (Nat.le_of_lt_succ hk) with hk | rfl
        · exact hall k hk
        · simpa using h
      · intro h
        simp [h n (by omega)]

theorem leastBelow_eq_some {p : Nat → Bool} {n k : Nat} :
    leastBelow p n = some k ↔ k < n ∧ p k = true ∧ ∀ j < k, p j = false := by
  induction n with
  | zero => simp [leastBelow]
  | succ n ih =>
    unfold leastBelow
    cases hn : leastBelow p n with
    | some k' =>
      rw [hn] at ih
      constructor
      · intro h
        obtain ⟨hlt, hp⟩ := ih.1 h
        exact ⟨by omega, hp⟩
      · rintro ⟨-, hp, hleast⟩
        apply ih.2
        refine ⟨?_, hp, hleast⟩
        -- a smaller number was found already, so `k` cannot be `n`
        apply Nat.lt_of_not_le
        intro hge
        have hnone : leastBelow p n = none :=
          leastBelow_eq_none.2 fun j hj => hleast j (by omega)
        rw [hn] at hnone
        cases hnone
    | none =>
      have hall := leastBelow_eq_none.1 hn
      constructor
      · intro h
        dsimp only at h
        split at h
        · rename_i hp
          cases h
          exact ⟨by omega, hp, hall⟩
        · cases h
      · rintro ⟨hlt, hp, -⟩
        rcases Nat.lt_or_eq_of_le (Nat.le_of_lt_succ hlt) with hk | rfl
        · rw [hall k hk] at hp
          cases hp
        · simp [hp]

end SymExec.Sat

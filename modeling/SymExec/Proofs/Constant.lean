import SymExec.Proofs.Circuit
import SymExec.Proofs.Solve
import Mathlib.Algebra.Order.BigOperators.Group.List

/-!
# Constant terms are found exactly

`Term.constant?` gives a value if and only if the term has it under every valuation
(`constant?_eq_some`). Neither the samples nor the search has a part in what the answer is: the
samples are valuations, a refutation is a proof, and all else is settled by trial.
-/
namespace SymExec.Term

open Std.Tactic.BVDecide

variable {w : Nat}

/-! ## Trial -/

/-- The number that the symbolic bytes spell under a valuation. -/
def codeOf (v : Valuation) (symbols : List Nat) : Nat := Cell.valueOf v (symbols.map .symbol)

theorem codeOf_lt (v : Valuation) (symbols : List Nat) :
    codeOf v symbols < 256 ^ symbols.length := by
  have h := Cell.valueOf_lt v (symbols.map .symbol)
  rwa [List.length_map] at h

theorem spelled_codeOf (v : Valuation) {symbols : List Nat} {i : Nat} (h : i ∈ symbols) :
    spelled symbols (codeOf v symbols) i = v i := by
  unfold spelled
  cases hk : symbols.idxOf? i with
  | none => exact absurd h (List.idxOf?_eq_none_iff.1 hk)
  | some k =>
    obtain ⟨hlt, heq, -⟩ := List.idxOf?_eq_some_iff.1 hk
    have hget : (symbols.map Cell.symbol)[k]? = some (.symbol i) := by
      rw [List.getElem?_map, List.getElem?_eq_getElem hlt, heq]
      rfl
    exact Cell.ofNat_valueOf_div v hget

theorem exhausted_iff (t : Term w) (c : BitVec w) :
    isConstantly.exhausted t c = true ↔ ∀ v, t.eval v = c := by
  simp only [isConstantly.exhausted, Option.isNone_iff_eq_none, Sat.leastBelow_eq_none]
  constructor
  · intro h v
    have hcode := h _ (codeOf_lt v t.symbols.eraseDups)
    rw [← eval_congr t fun i hi => spelled_codeOf v (List.mem_eraseDups.2 hi)]
    simpa using hcode
  · intro h code _
    simp [h]

/-! ## Refutation -/

theorem eval_differs (t : Term w) (c : BitVec w) (v : Valuation) {n : Nat} (hn : ∀ i ∈ t.symbols, i ≤ n) :
    (t.differs c).eval (Sat.bytesUpTo v n) = (t.eval v != c) := by
  have hsymbols : (differ t (const c)).symbols = t.symbols := by
    simp [differ, equal, symbols]
  have hv : ∀ i ∈ (differ t (const c)).symbols,
      (BVExpr.var i : BVExpr 8).eval (Sat.bytesUpTo v n) = v i := fun i hi =>
    Sat.eval_var_bytesUpTo v (hn i (hsymbols ▸ hi))
  rw [differs, Sat.eval_withFacts (facts_eval _ _ t), Sat.eval_isOne, circuit_eval]
  exact (holds_congr hv).trans (holds_differ v t (const c))

theorem eval_of_differs_refuted {t : Term w} {c : BitVec w} (h : Sat.solve (t.differs c) [] = .refuted)
    (v : Valuation) : t.eval v = c := by
  have hfalse := eval_differs t c v (n := t.symbols.sum) fun i hi => List.le_sum_of_mem hi
  rw [Sat.eval_of_refuted h] at hfalse
  simpa using hfalse.symm

/-! ## The answer -/

theorem isConstantly_iff (t : Term w) (c : BitVec w) : t.isConstantly c = true ↔ ∀ v, t.eval v = c := by
  unfold isConstantly
  rw [Bool.and_eq_true]
  constructor
  · rintro ⟨-, h⟩
    split at h
    · rename_i hrefuted
      exact eval_of_differs_refuted hrefuted
    · split at h
      · cases h
      · exact (exhausted_iff t c).1 h
    · exact (exhausted_iff t c).1 h
  · intro h
    have hexhausted := (exhausted_iff t c).2 h
    refine ⟨by simp [h], ?_⟩
    split
    · rfl
    · simp [holds_differ, h, eval, hexhausted]
    · exact hexhausted

/-- The value found is the one that the term has under every valuation, and it is found if there is
one. -/
theorem constant?_eq_some {t : Term w} {c : BitVec w} : t.constant? = some c ↔ ∀ v, t.eval v = c := by
  unfold constant?
  constructor
  · intro h
    dsimp only at h
    split at h
    · rename_i hc
      cases h
      exact (isConstantly_iff t _).1 hc
    · cases h
  · intro h
    simp only [h, (isConstantly_iff t c).2 h, if_true]

end SymExec.Term

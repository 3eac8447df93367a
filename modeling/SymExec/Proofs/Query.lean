import SymExec.Proofs.Circuit
import SymExec.Proofs.Solve
import SymExec.Proofs.Store

/-!
# Answers of the store

The formula of a store holds under an assignment if and only if the inputs of the assignment satisfy
the path (`eval_formula`). So a store is feasible if and only if some input satisfies its conditions
(`feasible_iff`), and an input that is given out satisfies them (`accepts_of_leastCode?`).
-/
namespace SymExec.Store

open Std.Tactic.BVDecide List

variable {s : Store} {extra : List Condition}

/-! ## Formulas -/

section Formula

variable {input : Nat → BitVec 8} {n : Nat}
variable {s : Store} {es : Array (BVExpr 8)} {done : Array (BitVec 8)} {a : BVExpr.Assignment}

theorem eval_getD (h : es.toList.map (·.eval a) = done.toList) (i : Nat) :
    (es.getD i (.const 0)).eval a = done.getD i 0 := by
  rw [Array.getD_eq_getD_getElem?, Array.getD_eq_getD_getElem?, ← Array.getElem?_toList,
    ← Array.getElem?_toList, ← h, getElem?_map]
  cases es.toList[i]? <;> rfl

theorem eval_express (bs : List Segment) {used : Nat}
    (hdone : es.toList.map (·.eval (Sat.bytesUpTo input n)) = done.toList)
    (hused : used + ((bs.filter Segment.isInput).map Segment.size).sum ≤ n) :
    (express es used bs).toList.map (·.eval (Sat.bytesUpTo input n))
      = (fill input done used bs).toList := by
  induction bs generalizing es done used with
  | nil => exact hdone
  | cons b bs ih =>
    cases b with
    | input m =>
      simp only [filter_cons, Segment.isInput, if_true, map_cons, sum_cons,
        Segment.size] at hused
      refine ih ?_ (by omega)
      rw [Array.toList_appendList, Array.toList_appendList, map_append, map_map, hdone]
      congr 1
      apply map_congr_left
      intro k hk
      have := mem_range.1 hk
      exact Sat.eval_var_bytesUpTo input (by omega)
    | derived m t =>
      simp only [filter_cons, Segment.isInput, Bool.false_eq_true, if_false] at hused
      have hterm : (t.circuit fun i => es.getD i (.const 0)).eval (Sat.bytesUpTo input n)
          = t.eval fun i => done.getD i 0 := by
        rw [Term.circuit_eval]
        congr 1
        funext i
        exact eval_getD hdone i
      refine ih ?_ hused
      rw [Array.toList_appendList, Array.toList_appendList, map_append, map_map, hdone,
        bytes, ← hterm]
      rfl

theorem eval_expressions (hn : s.inputCount ≤ n) (i : Nat) :
    (s.expressions i).eval (Sat.bytesUpTo input n) = s.valuation input i :=
  eval_getD (eval_express s.segments rfl (by simpa [inputCount] using hn)) i

/-- Facts about derived bytes are one. -/
theorem eval_factsOn {needed : List Nat} : ∀ fact ∈ s.factsOn needed, fact.eval a = 1#1 := by
  unfold factsOn
  generalize placed 0 s.segments = blocks
  induction blocks with
  | nil => simp
  | cons b blocks ih =>
    obtain ⟨start, b⟩ := b
    rw [foldr_cons]
    cases b with
    | input n => exact ih
    | derived n t =>
      dsimp only
      split
      · intro fact hfact
        rcases mem_append.1 hfact with hfact | hfact
        · exact Term.facts_eval a s.expressions t fact hfact
        · exact ih fact hfact
      · exact ih

theorem eval_formula (hn : s.inputCount ≤ n) :
    (s.formula extra).eval (Sat.bytesUpTo input n) = s.accepts extra input := by
  rw [formula, Sat.eval_withFacts eval_factsOn, Sat.eval_isOne, Term.circuit_eval]
  simp only [eval_expressions hn]
  exact Term.holds_all _ _

end Formula

/-! ## Trial -/

theorem codeOf_succ (input : Nat → BitVec 8) (n : Nat) :
    codeOf input (n + 1) = 256 * codeOf input n + (input n).toNat := by
  simp [codeOf, range_succ]

theorem codeOf_lt (input : Nat → BitVec 8) (n : Nat) : codeOf input n < 256 ^ n := by
  induction n with
  | zero => simp [codeOf]
  | succ n ih =>
    have := (input n).isLt
    rw [codeOf_succ, Nat.pow_succ]
    omega

theorem spelled_codeOf (input : Nat → BitVec 8) {n k : Nat} (h : k < n) :
    spelled n (codeOf input n) k = input k := by
  induction n with
  | zero => omega
  | succ n ih =>
    have hbyte := (input n).isLt
    rw [spelled, if_pos h, codeOf_succ]
    rcases Nat.lt_or_eq_of_le (Nat.le_of_lt_succ h) with hk | rfl
    · have hexp : n + 1 - 1 - k = n - 1 - k + 1 := by omega
      have hdiv : (256 * codeOf input n + (input n).toNat) / 256 = codeOf input n := by omega
      rw [hexp, Nat.pow_succ', ← Nat.div_div_eq_div_mul, hdiv]
      simpa [spelled, hk] using ih hk
    · apply BitVec.eq_of_toNat_eq
      simp only [Nat.add_sub_cancel, Nat.sub_self, Nat.pow_zero, Nat.div_one, BitVec.toNat_ofNat]
      omega

theorem accepts_congr {input input' : Nat → BitVec 8} (h : ∀ k < s.inputCount, input k = input' k) :
    s.accepts extra input = s.accepts extra input' := by
  simp only [accepts, valuation_congr h]

theorem leastCodeByTrial_isSome :
    (s.leastCodeByTrial extra).isSome = true ↔ ∃ input, s.accepts extra input = true := by
  constructor
  · intro h
    obtain ⟨code, hcode⟩ := Option.isSome_iff_exists.1 h
    exact ⟨_, (Sat.leastBelow_eq_some.1 hcode).2.1⟩
  · rintro ⟨input, hinput⟩
    by_contra hnone
    have hall := Sat.leastBelow_eq_none.1 (Option.not_isSome_iff_eq_none.1 hnone)
    have hcode := hall _ (codeOf_lt input s.inputCount)
    rw [accepts_congr fun k hk => spelled_codeOf input hk, hinput] at hcode
    cases hcode

/-! ## Feasibility -/

/-- A store is feasible if and only if some input satisfies the path and the further conditions. -/
theorem feasible_iff : s.feasible extra = true ↔ ∃ input, s.accepts extra input = true := by
  unfold feasible
  rw [Bool.or_eq_true]
  constructor
  · rintro (h | h)
    · exact ⟨_, h⟩
    · split at h
      · cases h
      · rcases Bool.or_eq_true _ _ ▸ h with h | h
        · exact ⟨_, h⟩
        · exact leastCodeByTrial_isSome.1 h
      · exact leastCodeByTrial_isSome.1 h
  · rintro ⟨input, hinput⟩
    have htrial := leastCodeByTrial_isSome.2 ⟨input, hinput⟩
    refine .inr ?_
    split
    · rename_i hrefuted
      have hfalse := Sat.eval_of_refuted hrefuted (Sat.bytesUpTo input s.inputCount)
      rw [eval_formula (Nat.le_refl _), hinput] at hfalse
      cases hfalse
    · simp [htrial]
    · exact htrial

/-! ## The input of a path -/

theorem accepts_of_leastCode? {code : Nat} (h : s.leastCode? = some code) :
    s.accepts [] (spelled s.inputCount code) = true := by
  have htrial (h : s.leastCodeByTrial [] = some code) :
      s.accepts [] (spelled s.inputCount code) = true := (Sat.leastBelow_eq_some.1 h).2.1
  unfold leastCode? at h
  split at h
  · rename_i hzero
    cases h
    rw [← hzero]
    apply accepts_congr
    intro k hk
    simp [spelled, hk]
  · split at h
    · cases h
    · dsimp only at h
      split at h
      · rename_i haccepts
        cases h
        exact (Bool.and_eq_true _ _ ▸ haccepts).1
      · exact htrial h
    · exact htrial h

theorem slice_whole {α : Type} (xs : List α) : Section.slice xs 0 xs.length = xs := by
  have hnonneg : ¬ (xs.length : Int) < 0 := by omega
  simp [Section.slice, Section.resolve, hnonneg]

/-- The input that is given out for a path with as many inputs as asked for satisfies the path. -/
theorem accepts_of_assignment {n : Nat} {x : List (BitVec 8)} (hn : s.inputCount = n) (hpos : n ≠ 0)
    (h : s.assignment n = .ok x) : x.length = n ∧ s.accepts [] (fun k => x.getD k 0) = true := by
  unfold assignment at h
  rw [if_neg (by omega)] at h
  split at h
  · cases h
  · rename_i code hcode
    have hx : x = (range n).map (spelled n code) := by
      have hslice := slice_whole ((range n).map (spelled n code))
      rw [length_map, length_range] at hslice
      simp only [hn, hslice, length_map, length_range] at h
      simpa using h.symm
    subst hx
    refine ⟨by simp, ?_⟩
    rw [← accepts_of_leastCode? hcode]
    apply accepts_congr
    intro k hk
    rw [hn] at hk ⊢
    simp [getD_eq_getElem?_getD, hk]

end SymExec.Store

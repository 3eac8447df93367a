import SymExec.Proofs.Operation
import Mathlib.Data.List.Lex

/-!
# Least answers

The answers of a store are exact: conditions are feasible if and only if some values satisfy the
definitions, the path and the conditions (`feasible_iff_models`). They are canonical as well: an
input that is given out is the first one in the order of byte strings (`leastCode?_eq_some`), and the
value of a term is the least one there is (`leastValue_least`). Inputs are compared through the
numbers that they spell, an order that is the same (`code_lt_code`).
-/
namespace SymExec

open Run List Term

/-! ## Byte strings -/

/-- The number that bytes spell, the first one highest. -/
def code (bytes : List (BitVec 8)) : Nat := bytes.foldl (fun n b => 256 * n + b.toNat) 0

@[simp] theorem code_nil : code [] = 0 := rfl

theorem code_append_singleton (xs : List (BitVec 8)) (x : BitVec 8) :
    code (xs ++ [x]) = 256 * code xs + x.toNat := by
  simp [code]

theorem code_cons (x : BitVec 8) (xs : List (BitVec 8)) :
    code (x :: xs) = x.toNat * 256 ^ xs.length + code xs := by
  induction xs using reverseRecOn with
  | nil => simp [code]
  | append_singleton xs y ih =>
    rw [← cons_append, code_append_singleton, code_append_singleton, ih, length_append,
      length_singleton, Nat.pow_succ]
    ring

theorem code_lt (xs : List (BitVec 8)) : code xs < 256 ^ xs.length := by
  induction xs with
  | nil => simp
  | cons x xs ih =>
    have hx := x.isLt
    rw [code_cons, length_cons, Nat.pow_succ]
    calc x.toNat * 256 ^ xs.length + code xs
        < x.toNat * 256 ^ xs.length + 256 ^ xs.length := by omega
      _ = (x.toNat + 1) * 256 ^ xs.length := by ring
      _ ≤ 256 * 256 ^ xs.length := Nat.mul_le_mul_right _ (by omega)
      _ = 256 ^ xs.length * 256 := Nat.mul_comm _ _

/-- Byte strings of one length are ordered as the numbers that they spell. -/
theorem code_lt_code {xs ys : List (BitVec 8)} (h : xs.length = ys.length) :
    code xs < code ys ↔ xs < ys := by
  induction xs generalizing ys with
  | nil =>
    obtain rfl : ys = [] := length_eq_zero_iff.1 h.symm
    simp
  | cons x xs ih =>
    obtain ⟨y, ys, rfl⟩ : ∃ y ys', ys = y :: ys' := exists_cons_of_length_eq_add_one h.symm
    have hlength : xs.length = ys.length := by simpa using h
    have hx := code_lt xs
    have hy := code_lt ys
    rw [← hlength] at hy
    rw [cons_lt_cons_iff, code_cons, code_cons, ← hlength, ← ih hlength, BitVec.lt_def,
      BitVec.toNat_eq]
    -- The first bytes decide, since the rest is less than one unit of the first byte.
    rcases Nat.lt_trichotomy x.toNat y.toNat with hxy | hxy | hxy
    · have := Nat.mul_le_mul_right (256 ^ xs.length) (Nat.succ_le_of_lt hxy)
      rw [Nat.succ_mul] at this
      omega
    · rw [hxy]
      omega
    · have := Nat.mul_le_mul_right (256 ^ xs.length) (Nat.succ_le_of_lt hxy)
      rw [Nat.succ_mul] at this
      omega

/-- The order of byte strings is decided by their first bytes. -/
theorem lt_of_take_lt {xs ys : List (BitVec 8)} (h : xs.length = ys.length) {n : Nat}
    (hlt : xs.take n < ys.take n) : xs < ys := by
  induction n generalizing xs ys with
  | zero => simp at hlt
  | succ n ih =>
    cases xs with
    | nil =>
      obtain rfl : ys = [] := length_eq_zero_iff.1 h.symm
      simp at hlt
    | cons x xs =>
      obtain ⟨y, ys, rfl⟩ : ∃ y ys', ys = y :: ys' := exists_cons_of_length_eq_add_one h.symm
      rw [take_succ_cons, take_succ_cons, cons_lt_cons_iff] at hlt
      rw [cons_lt_cons_iff]
      exact hlt.imp_right fun ⟨hxy, hrest⟩ => ⟨hxy, ih (by simpa using h) hrest⟩

namespace Store

variable {s : Store} {extra : List Condition}
variable {n w : Nat} {t : Term w} {input : Nat → BitVec 8}

theorem codeOf_eq_code (input : Nat → BitVec 8) (n : Nat) :
    codeOf input n = code ((range n).map input) := by
  simp [codeOf, code, foldl_map]

theorem codeOf_congr {input' : Nat → BitVec 8} (h : ∀ k < n, input k = input' k) :
    codeOf input n = codeOf input' n := by
  rw [codeOf_eq_code, codeOf_eq_code, map_congr_left fun k hk => h k (mem_range.1 hk)]

theorem codeOf_spelled (n number : Nat) : codeOf (spelled n number) n = number % 256 ^ n := by
  induction n generalizing number with
  | zero => simp [codeOf, Nat.mod_one]
  | succ n ih =>
    have hhigh : ∀ k < n, spelled (n + 1) number k = spelled n (number / 256) k := by
      intro k hk
      have hexp : n + 1 - 1 - k = n - 1 - k + 1 := by omega
      rw [spelled, spelled, if_pos (by omega), if_pos hk, hexp, Nat.pow_succ',
        ← Nat.div_div_eq_div_mul]
    have hlow : (spelled (n + 1) number n).toNat = number % 256 := by
      simp [spelled]
    rw [codeOf_succ, codeOf_congr hhigh, ih, hlow, Nat.pow_succ', Nat.mod_mul]
    omega

/-! ## Inputs -/

theorem map_inputs (s : Store) (input : Nat → BitVec 8) :
    s.inputs.map (s.valuation input) = (range s.inputCount).map input := by
  refine ext_getElem (by simp [length_inputs]) fun k hk hk' => ?_
  have hlt : k < s.inputs.length := by simpa using hk
  have hinput := agrees_valuation s input k s.inputs[k] (getElem?_eq_getElem hlt)
  simpa using hinput

/-- Going through the segments, the next byte and the input bytes so far are known. -/
theorem foldl_segments (s : Store) : s.segments.foldl (fun (start, cells) b =>
    (start + b.size, if b.isInput then cells ++ cellsFrom start b.size else cells)) (0, [])
    = (s.size, s.inputs.map Cell.symbol) := by
  induction s using segment_induction with
  | nil path => rfl
  | snoc s b ih =>
    have hsegments : (s.extend [b]).segments = s.segments ++ [b] := rfl
    rw [hsegments, foldl_append, ih]
    cases b with
    | input n => simp [Segment.isInput, Segment.size, cellsFrom, range'_eq_map_range]
    | derived n t => simp [Segment.isInput, Segment.size]

theorem inputCells_eq (s : Store) : s.inputCells = s.inputs.map .symbol :=
  congrArg Prod.snd (foldl_segments s)

theorem valueOf_reverse (v : Valuation) (cells : List Cell) :
    Cell.valueOf v cells.reverse = code (cells.map (Cell.eval v)) := by
  induction cells with
  | nil => rfl
  | cons c cells ih =>
    rw [reverse_cons, Cell.valueOf_append, ih, map_cons, code_cons]
    simp [Cell.valueOf]
    ring

theorem valueOf_inputCells (s : Store) (input : Nat → BitVec 8) :
    Cell.valueOf (s.valuation input) s.inputCells.reverse = codeOf input s.inputCount := by
  rw [valueOf_reverse, inputCells_eq, map_map, codeOf_eq_code, ← map_inputs]
  rfl

theorem holds_below (hn : n < 256 ^ s.inputCount) (input : Nat → BitVec 8) :
    (s.below n).holds (s.valuation input) = true ↔ codeOf input s.inputCount < n := by
  have hpow : 2 ^ (8 * s.inputCount) = 256 ^ s.inputCount := by rw [Nat.pow_mul]
  have hcode := codeOf_lt input s.inputCount
  simp only [below, less, holds_relation, eval, valueOf_inputCells]
  simp [WordRel.eval, BitVec.ult, hpow, Nat.mod_eq_of_lt hn, Nat.mod_eq_of_lt hcode]

/-! ## The least input -/

theorem accepts_one {c : Condition} : s.accepts [c] input = true ↔
    s.accepts [] input = true ∧ c.holds (s.valuation input) = true := by
  simp [accepts]

theorem leastCodeByTrial_eq_none (h : s.leastCodeByTrial extra = none) (input : Nat → BitVec 8) :
    s.accepts extra input = false := by
  by_contra haccepts
  have hsome := leastCodeByTrial_isSome.2 ⟨input, Bool.not_eq_false _ ▸ haccepts⟩
  rw [h] at hsome
  cases hsome

theorem leastCodeByTrial_eq_some (h : s.leastCodeByTrial extra = some n)
    (haccepts : s.accepts extra input) : n ≤ codeOf input s.inputCount := by
  obtain ⟨-, -, hleast⟩ := Sat.leastBelow_eq_some.1 h
  by_contra hlt
  have hfalse := hleast _ (Nat.lt_of_not_le hlt)
  rw [accepts_congr fun k hk => spelled_codeOf input hk, haccepts] at hfalse
  cases hfalse

theorem leastCode?_eq_none (h : s.leastCode? = none) (input : Nat → BitVec 8) :
    s.accepts [] input = false := by
  unfold leastCode? at h
  split at h
  · cases h
  · split at h
    · rename_i hrefuted
      have hfalse := Sat.eval_of_refuted hrefuted (Sat.bytesUpTo input s.inputCount)
      rwa [eval_formula (Nat.le_refl _)] at hfalse
    · dsimp only at h
      split at h
      · cases h
      · exact leastCodeByTrial_eq_none h input
    · exact leastCodeByTrial_eq_none h input

/-- No input that satisfies the path spells a smaller number. -/
theorem leastCode?_eq_some (h : s.leastCode? = some n) (haccepts : s.accepts [] input) :
    n ≤ codeOf input s.inputCount := by
  unfold leastCode? at h
  split at h
  · cases h
    exact Nat.zero_le _
  · split at h
    · cases h
    · dsimp only at h
      split at h
      · rename_i hsmaller
        cases h
        rw [Bool.and_eq_true, Bool.not_eq_true'] at hsmaller
        by_contra hlt
        have hbelow := (holds_below (codeOf_lt _ _) input).2 (Nat.lt_of_not_le hlt)
        have hfeasible := feasible_iff.2 ⟨input, accepts_one.2 ⟨haccepts, hbelow⟩⟩
        rw [hsmaller.2] at hfeasible
        cases hfeasible
      · exact leastCodeByTrial_eq_some h haccepts
    · exact leastCodeByTrial_eq_some h haccepts

/-! ## The least value of a term -/

def Takes (s : Store) {w : Nat} (t : Term w) (n : Nat) : Prop :=
  ∃ input, s.accepts [] input = true ∧ (t.eval (s.valuation input)).toNat = n

theorem feasible_equal (hn : n < 2 ^ w) :
    s.feasible [equal t (.const (BitVec.ofNat w n))] = true ↔ s.Takes t n := by
  rw [feasible_iff]
  refine exists_congr fun input => ?_
  rw [accepts_one, holds_equal, beq_iff_eq, ← BitVec.toNat_inj]
  simp [eval, Nat.mod_eq_of_lt hn]

theorem feasible_less {c : BitVec w} :
    s.feasible [less false t (.const c)] = true ↔ ∃ n < c.toNat, s.Takes t n := by
  have hless (v : Valuation) :
      (less false t (.const c)).holds v = true ↔ (t.eval v).toNat < c.toNat := by
    rw [less, holds_relation]
    exact decide_eq_true_iff
  rw [feasible_iff]
  constructor
  · rintro ⟨input, haccepts⟩
    obtain ⟨haccepts, hlt⟩ := accepts_one.1 haccepts
    exact ⟨_, (hless _).1 hlt, input, haccepts, rfl⟩
  · rintro ⟨_, hlt, input, haccepts, rfl⟩
    exact ⟨input, accepts_one.2 ⟨haccepts, (hless _).2 hlt⟩⟩

theorem leastValueByTrial_least {k : Nat} (h : s.Takes t k) :
    ∃ n, s.leastValueByTrial t = some n ∧ s.Takes t n ∧ ∀ k, s.Takes t k → n ≤ k := by
  have hlt {k : Nat} (h : s.Takes t k) : k < 2 ^ w := by
    obtain ⟨input, -, rfl⟩ := h
    exact BitVec.isLt _
  cases htrial : s.leastValueByTrial t with
  | none =>
    have hfalse := Sat.leastBelow_eq_none.1 htrial k (hlt h)
    rw [(feasible_equal (hlt h)).2 h] at hfalse
    cases hfalse
  | some n =>
    obtain ⟨hn, hfeasible, hleast⟩ := Sat.leastBelow_eq_some.1 htrial
    refine ⟨n, rfl, (feasible_equal hn).1 hfeasible, fun k hk => ?_⟩
    by_contra hsmaller
    have hfalse := hleast k (Nat.lt_of_not_le hsmaller)
    rw [(feasible_equal (hlt hk)).2 hk] at hfalse
    cases hfalse

theorem leastValue_least {k : Nat} (h : s.Takes t k) :
    s.Takes t (s.leastValue t) ∧ ∀ k, s.Takes t k → s.leastValue t ≤ k := by
  obtain ⟨n, hn, hspec⟩ := leastValueByTrial_least h
  unfold leastValue
  dsimp only
  split
  · split
    · rename_i hsmaller
      rw [Bool.and_eq_true, Bool.not_eq_true'] at hsmaller
      refine ⟨⟨_, hsmaller.1, rfl⟩, fun k hk => ?_⟩
      by_contra hlt
      have hfeasible := feasible_less.2 ⟨k, Nat.lt_of_not_le hlt, hk⟩
      rw [hsmaller.2] at hfeasible
      cases hfeasible
    · rwa [hn]
  · rwa [hn]

/-! ## Models -/

/-- A store that operations have made. A condition that is required speaks of bytes that the store
has by then. -/
inductive Built : Store → Prop where
  | empty : Built {}
  | run {s : Store} (op : Op) (hop : ∀ c, op = .require c → ∀ i ∈ c.symbols, i < s.size)
    (h : Built s) : Built (op.run.final s)

theorem Built.wellFormed (h : s.Built) : s.WellFormed := by
  induction h with
  | empty => exact wellFormed_empty
  | @run s op hop _ ih =>
    have hderives {α : Type} {act : Run Store α} (h : Keeps Derives act) :
        ((do let _ ← act : Run Store Unit).final s).WellFormed :=
      (grows_derives (derives_composes.bind h (by grind) s)).wellFormed ih
    cases op with
    | fresh n => exact (grows_input s n.toNat).wellFormed ih
    | require c => exact (grows_push s c (hop c rfl)).wellFormed ih
    | binary op lhs rhs kind rhsKind => exact hderives (keeps_binary op lhs rhs kind rhsKind)
    | overflowing op lhs rhs kind => exact hderives (keeps_overflowing op lhs rhs kind)
    | select cond yes no kind => exact hderives (keeps_select cond yes no kind)
    | countBits way v kind => exact hderives (keeps_countBits way v kind)

/-- Every input that satisfies the path, with the further conditions, comes from values that satisfy
the store, and all such values come from one. -/
theorem WellFormed.accepts_iff (h : s.WellFormed)
    (hscope : ∀ c ∈ extra, ∀ i ∈ c.symbols, i < s.size) :
    (∃ input, s.accepts extra input = true) ↔
      ∃ v, s.Models v ∧ ∀ c ∈ extra, c.holds v = true := by
  constructor
  · rintro ⟨input, haccepts⟩
    rw [Store.accepts_iff] at haccepts
    refine ⟨s.valuation input, ⟨satisfied_valuation h.terms input, ?_⟩, ?_⟩
    · exact fun c hc => haccepts c (mem_append_left _ hc)
    · exact fun c hc => haccepts c (mem_append_right _ hc)
  · rintro ⟨v, hv, hextra⟩
    obtain ⟨input, haccepts, hsame⟩ := hv.exists_input h
    refine ⟨input, ?_⟩
    rw [Store.accepts_iff] at haccepts ⊢
    intro c hc
    rcases mem_append.1 hc with hc | hc
    · exact haccepts c (mem_append_left _ hc)
    · rw [← holds_congr fun i hi => hsame i (hscope c hc i hi)]
      exact hextra c hc

theorem feasible_iff_models (h : s.WellFormed)
    (hscope : ∀ c ∈ extra, ∀ i ∈ c.symbols, i < s.size) :
    s.feasible extra = true ↔ ∃ v, s.Models v ∧ ∀ c ∈ extra, c.holds v = true :=
  feasible_iff.trans (h.accepts_iff hscope)

theorem Models.exists_codeOf {v : Valuation} (hv : s.Models v) (h : s.WellFormed) :
    ∃ input, s.accepts [] input = true ∧ s.inputs.map v = (range s.inputCount).map input := by
  obtain ⟨input, haccepts, hsame⟩ := hv.exists_input h
  refine ⟨input, haccepts, ?_⟩
  rw [← map_inputs]
  exact map_congr_left fun i hi => hsame i (mem_inputs_lt hi)

theorem slice_zero {α : Type} (xs : List α) (n : Nat) : Section.slice xs 0 n = xs.take n := by
  have hnonneg : ¬ (n : Int) < 0 := by omega
  simp [Section.slice, Section.resolve, hnonneg]

theorem assignment_eq (hn : 0 < n) : s.assignment n = match s.leastCode? with
    | none => .error .unsatisfiable
    | some code => .ok (((range s.inputCount).map (spelled s.inputCount code)).take n
        ++ replicate (n - s.inputCount) 0) := by
  unfold assignment
  rw [if_neg (by omega)]
  cases s.leastCode? with
  | none => rfl
  | some code =>
    simp only [slice_zero]
    congr 3
    simp
    omega

/-- On a feasible path the bytes that are given out are those of the first input in the order of byte
strings, then zeros. -/
theorem assignment_least (hn : 0 < n) (h : s.WellFormed) (hmodel : ∃ v, s.Models v) :
    ∃ x, s.assignment n = .ok x ∧ x.length = n ∧
      (∃ v, s.Models v ∧ x.take (min n s.inputCount) = (s.inputs.map v).take n) ∧
      (∀ v, s.Models v → x.take (min n s.inputCount) ≤ (s.inputs.map v).take n) ∧
      ∀ b ∈ x.drop (min n s.inputCount), b = 0 := by
  obtain ⟨v, hv⟩ := hmodel
  obtain ⟨input, haccepts, -⟩ := hv.exists_input h
  cases hleast : s.leastCode? with
  | none =>
    rw [leastCode?_eq_none hleast input] at haccepts
    cases haccepts
  | some number =>
    let first := spelled s.inputCount number
    let bytes := (range s.inputCount).map first
    have hassignment := assignment_eq (s := s) hn
    rw [hleast] at hassignment
    have hlength : (bytes.take n).length = min n s.inputCount := by simp [bytes]
    refine ⟨_, hassignment, ?_, ?_⟩
    · simp
      omega
    rw [take_left' hlength, drop_left' hlength]
    refine ⟨⟨s.valuation first, h.models (accepts_of_leastCode? hleast), ?_⟩, fun v hv => ?_, ?_⟩
    · rw [map_inputs]
    · -- A smaller input would spell a smaller number than the least one.
      obtain ⟨input, haccepts, hinputs⟩ := hv.exists_codeOf h
      rw [hinputs, ← List.not_lt]
      intro hlt
      have hcode := (code_lt_code (by simp [bytes])).2 (lt_of_take_lt (by simp [bytes]) hlt)
      rw [← codeOf_eq_code, ← codeOf_eq_code, codeOf_spelled] at hcode
      have hle := leastCode?_eq_some hleast haccepts
      have hmod := Nat.mod_le number (256 ^ s.inputCount)
      omega
    · exact fun b hb => eq_of_mem_replicate hb

theorem assignment_eq_error (hn : 0 < n) (h : s.WellFormed) :
    s.assignment n = .error .unsatisfiable ↔ ¬ ∃ v, s.Models v := by
  constructor
  · intro herror hmodel
    obtain ⟨x, hx, -⟩ := assignment_least hn h hmodel
    rw [hx] at herror
    cases herror
  · intro hnone
    rw [assignment_eq hn]
    cases hleast : s.leastCode? with
    | none => rfl
    | some number => exact absurd ⟨_, h.models (accepts_of_leastCode? hleast)⟩ hnone

/-! ## Values -/

theorem takes_iff (h : s.WellFormed) (hscope : ∀ i ∈ t.symbols, i < s.size) :
    s.Takes t n ↔ ∃ v, s.Models v ∧ (t.eval v).toNat = n := by
  constructor
  · rintro ⟨input, haccepts, hn⟩
    exact ⟨_, h.models haccepts, hn⟩
  · rintro ⟨v, hv, hn⟩
    obtain ⟨input, haccepts, hsame⟩ := hv.exists_input h
    refine ⟨input, haccepts, ?_⟩
    rw [← hn, eval_congr t fun i hi => hsame i (hscope i hi)]

end Store

def Scalar.word (v : Valuation) (kind : Kind) : Scalar → BitVec kind.bits
  | bits p => p.setWidth kind.bits
  | cells list => BitVec.ofNat kind.bits (Cell.valueOf v list)
  | _ => 0

namespace Store

variable {s : Store}
variable {kind : Kind} {a : Scalar}

theorem term_word (h : a.Fits s kind) : ∃ t, s.term a kind = .ok t ∧ ∀ v, t.eval v = a.word v kind := by
  cases h with
  | bits p => exact ⟨_, rfl, fun v => rfl⟩
  | cells hlength hscope =>
    exact ⟨_, term_eq_ok.2 (.inr ⟨_, rfl, hlength, hscope, rfl⟩), fun v => rfl⟩

theorem witness_least (ha : a.Fits s kind) (h : s.WellFormed) (hmodel : ∃ v, s.Models v) :
    ∃ n, s.witness a kind = .ok n ∧
      (∃ v, s.Models v ∧ (a.word v kind).toNat = n) ∧
      ∀ v, s.Models v → n ≤ (a.word v kind).toNat := by
  obtain ⟨t, ht, hword⟩ := term_word ha
  have htakes (n : Nat) := takes_iff (n := n) h (symbols_term_lt ht)
  simp only [hword] at htakes
  have hfeasible : s.feasible [] := (feasible_iff_models h (by simp)).2 (by simpa using hmodel)
  obtain ⟨v, hv⟩ := hmodel
  obtain ⟨hvalue, hleast⟩ := leastValue_least ((htakes _).2 ⟨v, hv, rfl⟩)
  refine ⟨s.leastValue t, ?_, (htakes _).1 hvalue, fun v hv => hleast _ ((htakes _).2 ⟨v, hv, rfl⟩)⟩
  simp only [witness, hfeasible, ht]
  rfl

theorem witness_eq_error (ha : a.Fits s kind) (h : s.WellFormed) :
    s.witness a kind = .error (.error .unsatisfiable) ↔ ¬ ∃ v, s.Models v := by
  constructor
  · intro herror hmodel
    obtain ⟨n, hn, -⟩ := witness_least ha h hmodel
    rw [hn] at herror
    cases herror
  · intro hnone
    have hfeasible : s.feasible [] = false := by
      rw [← Bool.not_eq_true, feasible_iff_models h (by simp)]
      simpa using hnone
    simp only [witness, hfeasible]
    rfl

/-- The answers of a store that operations have made. Conditions are feasible if and only if values
satisfy them with the store. Where no values satisfy the store, no input and no value is given out.
Otherwise the input is the first one in the order of byte strings, cut or padded with zeros, and the
value is the least one. -/
theorem answers_exact (h : s.Built) :
    (∀ extra, (∀ c ∈ extra, ∀ i ∈ c.symbols, i < s.size) →
      (s.feasible extra = true ↔ ∃ v, s.Models v ∧ ∀ c ∈ extra, c.holds v = true)) ∧
    (∀ n : Nat, 0 < n →
      (s.assignment n = .error .unsatisfiable ↔ ¬ ∃ v, s.Models v) ∧
      ((∃ v, s.Models v) → ∃ x, s.assignment n = .ok x ∧ x.length = n ∧
        (∃ v, s.Models v ∧ x.take (min n s.inputCount) = (s.inputs.map v).take n) ∧
        (∀ v, s.Models v → x.take (min n s.inputCount) ≤ (s.inputs.map v).take n) ∧
        ∀ b ∈ x.drop (min n s.inputCount), b = 0)) ∧
    (∀ (a : Scalar) (kind : Kind), a.Fits s kind →
      (s.witness a kind = .error (.error .unsatisfiable) ↔ ¬ ∃ v, s.Models v) ∧
      ((∃ v, s.Models v) → ∃ n, s.witness a kind = .ok n ∧
        (∃ v, s.Models v ∧ (a.word v kind).toNat = n) ∧
        ∀ v, s.Models v → n ≤ (a.word v kind).toNat)) := by
  have hs := h.wellFormed
  refine ⟨fun extra hscope => feasible_iff_models hs hscope, fun n hn => ?_, fun a kind ha => ?_⟩
  · exact ⟨assignment_eq_error hn hs, assignment_least hn hs⟩
  · exact ⟨witness_eq_error ha hs, witness_least ha hs⟩

/-- Two inputs, the second of which is not zero. -/
theorem answers_exact_sample :
    let s : Store :=
      { segments := [.input 2], path := [.differ (.word 8 [.symbol 1]) (.const 0)] }
    s.Built ∧ (∃ v, s.Models v) ∧
    (∃ x, s.assignment 3 = .ok x ∧ x.length = 3 ∧
      (∃ v, s.Models v ∧ x.take 2 = (s.inputs.map v).take 3) ∧
      (∀ v, s.Models v → x.take 2 ≤ (s.inputs.map v).take 3) ∧ ∀ b ∈ x.drop 2, b = 0) ∧
    ∃ n, s.witness (.cells [.symbol 1]) .u8 = .ok n ∧
      (∃ v, s.Models v ∧ ((Scalar.cells [.symbol 1]).word v .u8).toNat = n) ∧
      ∀ v, s.Models v → n ≤ ((Scalar.cells [.symbol 1]).word v .u8).toNat := by
  intro s
  have hsymbols : Cell.symbols [.symbol 1] = [1] := rfl
  have hbuilt : s.Built := by
    refine .run (.require (.differ (.word 8 [.symbol 1]) (.const 0))) ?_
      (.run (.fresh 2) nofun .empty)
    rintro _ ⟨⟩ i hi
    obtain rfl : i = 1 := by
      simpa [differ, equal, symbols, hsymbols] using hi
    decide
  have hmodel : ∃ v, s.Models v := by
    refine ⟨fun _ => 1, ?_, ?_⟩
    · simp [s, definitions, placed]
    · decide
  have hfits : (Scalar.cells [.symbol 1]).Fits s .u8 := .cells rfl (by decide)
  obtain ⟨-, hassignment, hwitness⟩ := answers_exact hbuilt
  exact ⟨hbuilt, hmodel, (hassignment 3 (by decide)).2 hmodel, (hwitness _ _ hfits).2 hmodel⟩

end Store
end SymExec

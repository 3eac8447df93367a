import SymExec.Proofs.Term
import SymExec.Store.Query
import Mathlib.Data.List.GetD
import Mathlib.Data.List.Induction

/-!
# Symbolic bytes and their values

The segments of a store number its bytes without gaps: every byte is an input or belongs to the
block of exactly one definition (`input_or_defined`). The values of the inputs determine all others
(`valuation_extend`, `valuation_input`, `valuation_derived`), and where every term speaks of earlier
bytes only they determine them uniquely (`eq_valuation_of_satisfied`).
-/
namespace SymExec

open List

/-- The block of bytes that stand for a term. -/
structure Definition where
  start : Nat
  size : Nat
  term : Term (8 * size)

namespace Definition

def covers (d : Definition) (i : Nat) : Bool := d.start ≤ i && i < d.start + d.size

/-- The bytes of the block are those of the term's value. -/
def satisfied (v : Valuation) (d : Definition) : Prop :=
  ∀ j < d.size, v (d.start + j) = (d.term.eval v).extractLsb' (8 * j) 8

end Definition

namespace Store

variable {i : Nat} {s : Store} {input : Nat → BitVec 8}

/-- The definitions of the derived bytes, the oldest one first. -/
def definitions (s : Store) : List Definition :=
  (placed 0 s.segments).filterMap fun (start, b) =>
    match b with
    | .derived n t => some ⟨start, n, t⟩
    | .input _ => none

/-- The derived bytes are those of their terms. -/
def Satisfied (s : Store) (v : Valuation) : Prop := ∀ d ∈ s.definitions, d.satisfied v

def inputs (s : Store) : List Nat :=
  (placed 0 s.segments).flatMap fun (start, b) =>
    match b with
    | .input n => range' start n
    | .derived _ _ => []

def extend (s : Store) (more : List Segment) : Store := { s with segments := s.segments ++ more }

@[simp] theorem path_extend (s : Store) (more : List Segment) : (s.extend more).path = s.path := rfl

@[simp] theorem extend_nil (s : Store) : s.extend [] = s := by simp [extend]

theorem extend_extend (s : Store) (more last : List Segment) :
    (s.extend more).extend last = s.extend (more ++ last) := by
  simp [extend]

/-! ## Numbering -/

theorem size_extend (s : Store) (more : List Segment) :
    (s.extend more).size = s.size + (more.map Segment.size).sum := by
  simp [size, extend]

@[simp] theorem size_extend_one (s : Store) (b : Segment) :
    (s.extend [b]).size = s.size + b.size := by
  simp [size_extend]

theorem placed_append (start : Nat) (bs more : List Segment) :
    placed start (bs ++ more)
      = placed start bs ++ placed (start + (bs.map Segment.size).sum) more := by
  induction bs generalizing start with
  | nil => simp [placed]
  | cons b bs ih => simp [placed, ih, Nat.add_assoc]

theorem placed_extend (s : Store) (b : Segment) :
    placed 0 (s.extend [b]).segments = placed 0 s.segments ++ [(s.size, b)] := by
  simp [extend, placed_append, placed, size]

@[simp] theorem definitions_extend_input (s : Store) (n : Nat) :
    (s.extend [.input n]).definitions = s.definitions := by
  simp [definitions, placed_extend]

@[simp] theorem definitions_extend_derived (s : Store) (n : Nat) (t : Term (8 * n)) :
    (s.extend [.derived n t]).definitions = s.definitions ++ [⟨s.size, n, t⟩] := by
  simp [definitions, placed_extend]

@[simp] theorem inputs_extend_input (s : Store) (n : Nat) :
    (s.extend [.input n]).inputs = s.inputs ++ range' s.size n := by
  simp [inputs, placed_extend]

@[simp] theorem inputs_extend_derived (s : Store) (n : Nat) (t : Term (8 * n)) :
    (s.extend [.derived n t]).inputs = s.inputs := by
  simp [inputs, placed_extend]

/-- What holds without bytes and is kept by a new segment holds of every store. -/
theorem segment_induction {P : Store → Prop} (nil : ∀ path, P { path := path })
    (snoc : ∀ s b, P s → P (s.extend [b])) (s : Store) : P s := by
  obtain ⟨segments, path⟩ := s
  induction segments using reverseRecOn with
  | nil => exact nil path
  | append_singleton bs b ih => exact snoc ⟨bs, path⟩ b ih

theorem mem_inputs_lt (h : i ∈ s.inputs) : i < s.size := by
  induction s using segment_induction with
  | nil path => cases h
  | snoc s b ih =>
    rw [size_extend_one]
    cases b with
    | input n =>
      rw [inputs_extend_input, mem_append, mem_range'_1] at h
      simp only [Segment.size]
      rcases h with h | h
      · have := ih h
        omega
      · omega
    | derived n t =>
      rw [inputs_extend_derived] at h
      have := ih h
      omega

theorem end_le_size {d : Definition} (h : d ∈ s.definitions) : d.start + d.size ≤ s.size := by
  induction s using segment_induction with
  | nil path => cases h
  | snoc s b ih =>
    rw [size_extend_one]
    cases b with
    | input n =>
      rw [definitions_extend_input] at h
      have := ih h
      omega
    | derived n t =>
      rw [definitions_extend_derived, mem_append, mem_singleton] at h
      rcases h with h | rfl
      · have := ih h
        omega
      · exact Nat.le_refl _

theorem not_covers_of_size_le {d : Definition} (h : d ∈ s.definitions) (hi : s.size ≤ i) :
    d.covers i = false := by
  have := end_le_size h
  simp [Definition.covers]
  omega

/-- Every byte is an input, or belongs to the block of exactly one definition. -/
theorem input_or_defined (h : i < s.size) :
    (i ∈ s.inputs ∧ s.definitions.countP (·.covers i) = 0) ∨
      (i ∉ s.inputs ∧ s.definitions.countP (·.covers i) = 1) := by
  induction s using segment_induction with
  | nil path => cases h
  | snoc s b ih =>
    rw [size_extend_one] at h
    rcases Nat.lt_or_ge i s.size with hi | hi
    · -- an old byte: the new segment lies above it
      have habove : ¬ s.size ≤ i := by omega
      cases b with
      | input n =>
        rw [definitions_extend_input, inputs_extend_input, mem_append, mem_range'_1]
        simpa [habove] using ih hi
      | derived n t =>
        have hcovers : Definition.covers ⟨s.size, n, t⟩ i = false := by
          simp [Definition.covers, habove]
        rw [definitions_extend_derived, inputs_extend_derived, countP_append]
        simpa [hcovers] using ih hi
    · have hold : i ∉ s.inputs := fun hmem => by
        have := mem_inputs_lt hmem
        omega
      have hnone : s.definitions.countP (·.covers i) = 0 :=
        countP_eq_zero.2 fun d hd => by simp [not_covers_of_size_le hd hi]
      cases b with
      | input n =>
        refine .inl ⟨?_, by rw [definitions_extend_input, hnone]⟩
        rw [inputs_extend_input, mem_append, mem_range'_1]
        exact .inr ⟨hi, h⟩
      | derived n t =>
        refine .inr ⟨by rwa [inputs_extend_derived], ?_⟩
        have hcovers : Definition.covers ⟨s.size, n, t⟩ i = true := by
          simpa [Definition.covers] using ⟨hi, h⟩
        rw [definitions_extend_derived, countP_append, hnone]
        simp [hcovers]

/-! ## Valuations -/

@[simp] theorem length_bytes (n : Nat) (word : BitVec (8 * n)) : (bytes n word).length = n := by
  simp [bytes]

@[simp] theorem inputCount_extend_input (s : Store) (n : Nat) :
    (s.extend [.input n]).inputCount = s.inputCount + n := by
  simp [inputCount, extend, filter_cons, Segment.isInput, Segment.size]

@[simp] theorem inputCount_extend_derived (s : Store) (n : Nat) (t : Term (8 * n)) :
    (s.extend [.derived n t]).inputCount = s.inputCount := by
  simp [inputCount, extend, Segment.isInput]

theorem length_inputs (s : Store) : s.inputs.length = s.inputCount := by
  induction s using segment_induction with
  | nil path => rfl
  | snoc s b ih => cases b <;> simp [ih]

theorem fill_append (input : Nat → BitVec 8) (done : Array (BitVec 8)) (used : Nat)
    (bs more : List Segment) :
    fill input done used (bs ++ more) = fill input (fill input done used bs)
      (used + ((bs.filter Segment.isInput).map Segment.size).sum) more := by
  induction bs generalizing done used with
  | nil => rfl
  | cons b bs ih =>
    cases b with
    | input n => simp [fill, ih, filter_cons, Segment.isInput, Segment.size, Nat.add_assoc]
    | derived n t => simp [fill, ih, Segment.isInput]

def values (s : Store) (input : Nat → BitVec 8) : List (BitVec 8) :=
  (fill input #[] 0 s.segments).toList

theorem valuation_eq_getD (s : Store) (input : Nat → BitVec 8) (i : Nat) :
    s.valuation input i = (s.values input).getD i 0 := by
  simp [valuation, values, Array.getD_eq_getD_getElem?, getD_eq_getElem?_getD]

theorem values_extend_input (s : Store) (input : Nat → BitVec 8) (n : Nat) :
    (s.extend [.input n]).values input
      = s.values input ++ (range n).map fun k => input (s.inputCount + k) := by
  simp [values, extend, fill_append, fill, inputCount]

theorem values_extend_derived (s : Store) (input : Nat → BitVec 8) (n : Nat) (t : Term (8 * n)) :
    (s.extend [.derived n t]).values input
      = s.values input ++ bytes n (t.eval (s.valuation input)) := by
  simp [values, extend, fill_append, fill, valuation]

@[simp] theorem length_values (s : Store) (input : Nat → BitVec 8) :
    (s.values input).length = s.size := by
  induction s using segment_induction with
  | nil path => rfl
  | snoc s b ih =>
    cases b <;> simp [values_extend_input, values_extend_derived, ih, Segment.size]

theorem values_prefix (s : Store) (input : Nat → BitVec 8) (more : List Segment) :
    s.values input <+: (s.extend more).values input := by
  induction more using reverseRecOn with
  | nil => simp
  | append_singleton more b ih =>
    rw [← extend_extend]
    apply ih.trans
    cases b with
    | input n =>
      rw [values_extend_input]
      exact prefix_append _ _
    | derived n t =>
      rw [values_extend_derived]
      exact prefix_append _ _

/-- New bytes leave the values of the old ones as they are. -/
theorem valuation_extend (s : Store) (input : Nat → BitVec 8) (more : List Segment) (h : i < s.size) :
    (s.extend more).valuation input i = s.valuation input i := by
  obtain ⟨rest, hrest⟩ := values_prefix s input more
  rw [valuation_eq_getD, valuation_eq_getD, ← hrest, getD_append _ _ _ _ (by simpa using h)]

theorem valuation_input (s : Store) (input : Nat → BitVec 8) {n k : Nat} (h : k < n) :
    (s.extend [.input n]).valuation input (s.size + k) = input (s.inputCount + k) := by
  rw [valuation_eq_getD, values_extend_input, getD_append_right _ _ _ _ (by simp)]
  simp [getD_eq_getElem?_getD, h]

theorem valuation_derived (s : Store) (input : Nat → BitVec 8) {n j : Nat} (t : Term (8 * n))
    (h : j < n) : (s.extend [.derived n t]).valuation input (s.size + j)
      = (t.eval (s.valuation input)).extractLsb' (8 * j) 8 := by
  rw [valuation_eq_getD, values_extend_derived, getD_append_right _ _ _ _ (by simp)]
  simp [getD_eq_getElem?_getD, bytes, h]

theorem valuation_congr {input' : Nat → BitVec 8} (h : ∀ k < s.inputCount, input k = input' k) :
    s.valuation input = s.valuation input' := by
  have hvalues : s.values input = s.values input' := by
    induction s using segment_induction with
    | nil path => rfl
    | snoc s b ih =>
      cases b with
      | input n =>
        rw [inputCount_extend_input] at h
        rw [values_extend_input, values_extend_input, ih fun k hk => h k (by omega)]
        congr 1
        apply map_congr_left
        intro k hk
        have := mem_range.1 hk
        exact h _ (by omega)
      | derived n t =>
        rw [inputCount_extend_derived] at h
        have hs := ih h
        have hv : s.valuation input = s.valuation input' := by
          funext i
          rw [valuation_eq_getD, valuation_eq_getD, hs]
        rw [values_extend_derived, values_extend_derived, hs, hv]
  funext i
  rw [valuation_eq_getD, valuation_eq_getD, hvalues]

theorem accepts_iff {extra : List Condition} :
    s.accepts extra input = true ↔
      ∀ c ∈ s.path ++ extra, c.holds (s.valuation input) = true := by
  simp only [accepts, all_eq_true]

/-! ## Definitions determine the bytes -/

/-- Every term speaks of bytes before its own. -/
def Scoped (s : Store) : Prop := ∀ d ∈ s.definitions, ∀ i ∈ d.term.symbols, i < d.start

def Agrees (s : Store) (input : Nat → BitVec 8) (v : Valuation) : Prop :=
  ∀ k i, s.inputs[k]? = some i → v i = input k

theorem Scoped.of_extend {b : Segment} (h : (s.extend [b]).Scoped) : s.Scoped := by
  intro d hd
  apply h
  cases b <;> simp [hd]

theorem agrees_valuation (s : Store) (input : Nat → BitVec 8) :
    s.Agrees input (s.valuation input) := by
  induction s using segment_induction with
  | nil path => simp [Agrees, inputs, placed]
  | snoc s b ih =>
    intro k i hk
    cases b with
    | derived n t =>
      rw [inputs_extend_derived] at hk
      rw [valuation_extend _ _ _ (mem_inputs_lt (mem_of_getElem? hk))]
      exact ih k i hk
    | input n =>
      rw [inputs_extend_input] at hk
      rcases Nat.lt_or_ge k s.inputs.length with hlt | hge
      · rw [getElem?_append_left hlt] at hk
        rw [valuation_extend _ _ _ (mem_inputs_lt (mem_of_getElem? hk))]
        exact ih k i hk
      · rw [getElem?_append_right hge, length_inputs] at hk
        rw [length_inputs] at hge
        obtain ⟨hn, rfl⟩ := List.getElem?_eq_some_iff.1 hk
        rw [length_range'] at hn
        rw [getElem_range', Nat.one_mul, valuation_input _ _ hn]
        congr 1
        omega

theorem satisfied_valuation (h : s.Scoped) (input : Nat → BitVec 8) :
    ∀ d ∈ s.definitions, d.satisfied (s.valuation input) := by
  induction s using segment_induction with
  | nil path => simp [definitions, placed]
  | snoc s b ih =>
    intro d hd
    have hold : d ∈ s.definitions → d.satisfied ((s.extend [b]).valuation input) := by
      intro hd j hj
      have hend := end_le_size hd
      have hterm : d.term.eval ((s.extend [b]).valuation input) = d.term.eval (s.valuation input) :=
        Term.eval_congr _ fun i hi => by
          have := h.of_extend d hd i hi
          exact valuation_extend _ _ _ (by omega)
      rw [valuation_extend _ _ _ (by omega), hterm]
      exact ih h.of_extend d hd j hj
    cases b with
    | input n => exact hold (by simpa using hd)
    | derived n t =>
      have hlast := h ⟨s.size, n, t⟩ (by simp)
      rw [definitions_extend_derived, mem_append, mem_singleton] at hd
      rcases hd with hd | rfl
      · exact hold hd
      · intro j hj
        rw [valuation_derived _ _ _ hj,
          Term.eval_congr t fun i hi => valuation_extend s input _ (hlast i hi)]

/-- No other values of the derived bytes satisfy every definition. -/
theorem eq_valuation_of_satisfied (h : s.Scoped) {v : Valuation} (hv : s.Agrees input v)
    (hd : ∀ d ∈ s.definitions, d.satisfied v) : ∀ i < s.size, v i = s.valuation input i := by
  induction s using segment_induction with
  | nil path => exact fun i hi => absurd hi (by simp [size])
  | snoc s b ih =>
    intro i hi
    rw [size_extend_one] at hi
    have hold : ∀ i < s.size, v i = s.valuation input i := by
      apply ih h.of_extend
      · intro k i hk
        apply hv
        cases b with
        | derived n t => simpa using hk
        | input n =>
          rw [inputs_extend_input, List.getElem?_append_left (List.getElem?_eq_some_iff.1 hk).1, hk]
      · intro d hmem
        apply hd
        cases b <;> simp [hmem]
    rcases Nat.lt_or_ge i s.size with hlt | hge
    · rw [valuation_extend _ _ _ hlt]
      exact hold i hlt
    · obtain ⟨j, rfl⟩ := Nat.exists_eq_add_of_le hge
      cases b with
      | input n =>
        have hj : j < n := by
          simp only [Segment.size] at hi
          omega
        have hk := hv (s.inputCount + j) (s.size + j) (by
          rw [inputs_extend_input, getElem?_append_right (by simp [length_inputs])]
          simp [length_inputs, hj])
        rw [valuation_input _ _ hj, hk]
      | derived n t =>
        have hj : j < n := by
          simp only [Segment.size] at hi
          omega
        have hlast := h ⟨s.size, n, t⟩ (by simp)
        rw [valuation_derived _ _ _ hj, ← Term.eval_congr t fun i hi => hold i (hlast i hi)]
        exact hd ⟨s.size, n, t⟩ (by simp) j hj

end Store
end SymExec

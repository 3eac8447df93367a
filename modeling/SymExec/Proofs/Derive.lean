import SymExec.Proofs.Constant
import SymExec.Proofs.Run
import SymExec.Proofs.Store
import SymExec.Cast
import Mathlib.Logic.Relation

/-!
# Recording derived values

An operation on symbolic values records terms that speak of bytes the store has, and nothing else:
`Store.Derives` relates the store before to the store after any of them, whether the operation
succeeds or fails. A value that does not depend on symbolic bytes is not recorded (`derive_eq`).
-/
namespace SymExec

open Run Term

theorem Kind.bits_le (kind : Kind) : kind.bits ≤ 128 := by
  cases kind with
  | int w _ => cases w <;> simp [bits, numBytes, Width.bytes]
  | _ => decide

theorem Scalar.ofBits_eq_bits (value : Int) (kind : Kind) :
    ∃ p, ofBits value kind = .bits p ∧ p.setWidth kind.bits = BitVec.ofInt kind.bits value := by
  refine ⟨_, rfl, ?_⟩
  have hle := kind.bits_le
  split
  · ext i hi
    have h128 : i < 128 := by omega
    simp [h128, BitVec.getElem_signExtend, hi]
  · rw [BitVec.setWidth_setWidth_of_le _ hle, BitVec.setWidth_eq]

theorem Scalar.setWidth_of_ofBits {value : Int} {kind : Kind} {p : BitVec 128}
    (h : ofBits value kind = .bits p) : p.setWidth kind.bits = BitVec.ofInt kind.bits value := by
  obtain ⟨q, hq, hlow⟩ := ofBits_eq_bits value kind
  obtain rfl := bits.inj (h.symm.trans hq)
  exact hlow

namespace Store

variable {w : Nat} {kind : Kind} {s : Store} {v : Scalar} {c : Condition} {t : Term kind.bits}

/-- New bytes for a term over bytes that the store has, whose value is not fixed. -/
inductive Defines : Store → Store → Prop where
  | derived {s : Store} (n : Nat) (t : Term (8 * n)) (hscope : ∀ i ∈ t.symbols, i < s.size)
    (hvaries : ∀ c, ¬ ∀ v, t.eval v = c) : Defines s (s.extend [.derived n t])

/-- Any number of new definitions. -/
def Derives : Store → Store → Prop := Relation.ReflTransGen Defines

theorem derives_composes : Composes Derives :=
  ⟨fun _ => .refl, Relation.ReflTransGen.trans⟩

/-! ## Operands -/

theorem checkCells_eq_ok {cells : List Cell} {u : Unit} :
    s.checkCells cells = .ok u ↔ ∀ i ∈ Cell.symbols cells, i < s.size := by
  unfold checkCells
  split <;> simp_all

theorem term_eq_ok :
    s.term v kind = .ok t ↔
      (∃ p, v = .bits p ∧ t = .const (p.setWidth kind.bits)) ∨
      (∃ list, v = .cells list ∧ list.length = kind.numBytes ∧
        (∀ i ∈ Cell.symbols list, i < s.size) ∧ t = .word kind.bits list) := by
  cases v with
  | bits p => simp [term, eq_comm]
  | ptr p | undef => simp [term]
  | cells list =>
    simp only [term, reduceCtorEq, false_and, exists_false, false_or, Scalar.cells.injEq]
    by_cases hlength : list.length = kind.numBytes
    · simp only [hlength, ne_eq, not_true_eq_false, if_false, bind_iff, checkCells_eq_ok]
      constructor
      · rintro ⟨-, hscope, ⟨⟩⟩
        exact ⟨list, rfl, hlength, hscope, rfl⟩
      · rintro ⟨_, rfl, -, hscope, rfl⟩
        exact ⟨(), hscope, rfl⟩
    · simp only [hlength, ne_eq, not_false_eq_true, if_true]
      constructor
      · rintro ⟨⟩
      · rintro ⟨_, rfl, h, -⟩
        exact absurd h hlength

theorem shiftAmount_eq_ok {t : Term w} :
    s.shiftAmount v w = .ok t ↔
      (∃ p, v = .bits p ∧ t = .const (BitVec.ofNat w (p.toNat % w))) ∨
      (∃ list, v = .cells list ∧ (Width.ofBytes? list.length).isSome ∧
        (∀ i ∈ Cell.symbols list, i < s.size) ∧
        t = .binary .and (.word w list) (.const (BitVec.ofNat w (w - 1)))) := by
  cases v with
  | bits p =>
    constructor
    · rintro ⟨⟩
      exact .inl ⟨p, rfl, rfl⟩
    · rintro (⟨_, ⟨⟩, rfl⟩ | ⟨_, ⟨⟩, _⟩)
      rfl
  | ptr p | undef => simp [shiftAmount]
  | cells list =>
    simp only [shiftAmount, reduceCtorEq, false_and, exists_false, false_or, Scalar.cells.injEq]
    cases hwidth : Width.ofBytes? list.length with
    | some width =>
      simp only [Option.isNone_some, Bool.false_eq_true, if_false, bind_iff,
        checkCells_eq_ok]
      constructor
      · rintro ⟨-, hscope, ⟨⟩⟩
        exact ⟨list, rfl, by simp [hwidth], hscope, rfl⟩
      · rintro ⟨_, rfl, -, hscope, rfl⟩
        exact ⟨(), hscope, rfl⟩
    | none =>
      simp only [Option.isNone_none, if_true]
      constructor
      · rintro ⟨⟩
      · rintro ⟨_, rfl, h, -⟩
        simp [hwidth] at h

/-- The term of an operand speaks of bytes that the store has. -/
theorem symbols_term_lt (h : s.term v kind = .ok t) : ∀ i ∈ t.symbols, i < s.size := by
  rcases term_eq_ok.1 h with ⟨p, -, rfl⟩ | ⟨list, -, -, hscope, rfl⟩
  · simp [symbols]
  · exact hscope

theorem symbols_shiftAmount_lt {t : Term w} (h : s.shiftAmount v w = .ok t) :
    ∀ i ∈ t.symbols, i < s.size := by
  rcases shiftAmount_eq_ok.1 h with ⟨p, -, rfl⟩ | ⟨list, -, -, hscope, rfl⟩
  · simp [symbols]
  · simpa [symbols] using hscope

theorem symbols_cast {w' : Nat} (h : w = w') (t : Term w) : (h ▸ t : Term w').symbols = t.symbols := by
  cases h
  rfl

theorem symbols_secondOperand_lt {op : BinOp} {other : Kind}
    (h : s.secondOperand op v kind other = .ok t) : ∀ i ∈ t.symbols, i < s.size := by
  unfold secondOperand at h
  split at h
  · exact symbols_shiftAmount_lt h
  · obtain ⟨u, hu, h⟩ := bind_iff.1 h
    split at h
    · cases h
      rw [symbols_cast]
      exact symbols_term_lt hu
    · cases h

theorem symbols_truth_lt (h : s.truth v = .ok c) : ∀ i ∈ c.symbols, i < s.size := by
  obtain ⟨t, ht, ⟨⟩⟩ := bind_iff.1 h
  simpa [differ, equal, symbols] using symbols_term_lt ht

theorem symbols_equals_lt {n : Int} (h : s.equals v n kind = .ok c) : ∀ i ∈ c.symbols, i < s.size := by
  obtain ⟨t, ht, ⟨⟩⟩ := bind_iff.1 h
  simpa [equal, symbols] using symbols_term_lt ht

/-! ## Results -/

/-- What a term gives has the value of the term: a term with a fixed value gives that value and
records nothing, any other gives fresh bytes, which stand for it. -/
theorem derive_cases (kind : Kind) (t : Term kind.bits) (s : Store) :
    (∃ c, (∀ v, t.eval v = c) ∧ derive kind t s = .ok (.ofBits c.toNat kind) s) ∨
    (∀ c, ¬ ∀ v, t.eval v = c) ∧ derive kind t s =
      .ok (.cells (cellsFrom s.size kind.numBytes)) (s.extend [.derived kind.numBytes t]) := by
  unfold derive
  cases hc : t.constant? with
  | some c => exact .inl ⟨c, constant?_eq_some.1 hc, rfl⟩
  | none => exact .inr ⟨fun c h => by simp [constant?_eq_some.2 h] at hc, rfl⟩

theorem derives_derive (h : ∀ i ∈ t.symbols, i < s.size) : s.Derives ((derive kind t).final s) := by
  obtain ⟨c, -, hderive⟩ | ⟨hvaries, hderive⟩ := derive_cases kind t s
  · rw [final_of_ok hderive]
    exact .refl
  · rw [final_of_ok hderive]
    exact .single (.derived _ t h hvaries)

theorem derives_deriveTruth (h : ∀ i ∈ c.symbols, i < s.size) :
    s.Derives ((deriveTruth c).final s) := derives_derive h

theorem Defines.size_le {s' : Store} (h : s.Defines s') : s.size ≤ s'.size := by
  obtain ⟨n, t, -, -⟩ := h
  simp

theorem Derives.size_le {s' : Store} (h : s.Derives s') : s.size ≤ s'.size := by
  induction h with
  | refl => exact Nat.le_refl _
  | tail _ hstep ih => exact Nat.le_trans ih hstep.size_le

theorem symbols_combine_lt (signed : Bool) (op : BinOp) {a b : Term w} {n : Nat}
    (ha : ∀ i ∈ a.symbols, i < n) (hb : ∀ i ∈ b.symbols, i < n) :
    match combine signed op a b with
    | .word t => ∀ i ∈ t.symbols, i < n
    | .truth c => ∀ i ∈ c.symbols, i < n := by
  cases op <;>
    simp only [combine, equal, differ, less, atMost, symbols,
      List.mem_append] <;>
    grind

/-! ## Operations -/

@[grind ←] theorem keeps_binary (op : BinOp) (lhs rhs : Scalar) (kind : Kind)
    (rhsKind : Option Kind) : Keeps Derives (binary op lhs rhs kind rhsKind) := by
  intro s
  refine derives_composes.liftBind_final fun a ha => derives_composes.liftBind_final fun b hb => ?_
  have hscope := symbols_combine_lt kind.isSigned op (symbols_term_lt ha)
    (symbols_secondOperand_lt hb)
  cases hc : combine kind.isSigned op a b with
  | word t =>
    rw [hc] at hscope
    exact derives_derive hscope
  | truth c =>
    rw [hc] at hscope
    exact derives_deriveTruth hscope

theorem symbols_widen (signed : Bool) (t : Term w) : (widen signed t).symbols = t.symbols := by
  cases signed <;> rfl

@[grind ←] theorem keeps_overflowing (op : BinOp) (lhs rhs : Scalar) (kind : Kind) :
    Keeps Derives (overflowing op lhs rhs kind) := by
  intro s
  refine derives_composes.liftBind_final fun a ha => derives_composes.liftBind_final fun b hb => ?_
  have hscope : ∀ i ∈ a.symbols ++ b.symbols, i < s.size := by
    intro i hi
    rcases List.mem_append.1 hi with hi | hi
    · exact symbols_term_lt ha i hi
    · exact symbols_term_lt hb i hi
  have hrecord (wordOp : WordOp) : s.Derives (final (do
      let result ← derive kind (.binary wordOp a b)
      let overflowed ← deriveTruth (.differ (widen kind.isSigned (.binary wordOp a b))
        (.binary wordOp (widen kind.isSigned a) (widen kind.isSigned b)))
      return (result, overflowed)) s) := by
    have hwrapped : s.Derives ((derive kind (.binary wordOp a b)).final s) := derives_derive hscope
    refine derives_composes.bind_final hwrapped fun r s1 hr => ?_
    rw [final_of_ok hr] at hwrapped
    refine derives_composes.bind_final (derives_deriveTruth fun i hi => ?_) fun _ _ _ => .refl
    apply Nat.lt_of_lt_of_le _ hwrapped.size_le
    simp only [differ, equal, symbols, symbols_widen, List.mem_append, or_self]
      at hi
    exact hscope i (List.mem_append.2 hi)
  cases op with
  | add => exact hrecord .add
  | sub => exact hrecord .sub
  | mul => exact hrecord .mul
  | _ => exact .refl

@[grind ←] theorem keeps_select (cond yes no : Scalar) (kind : Kind) :
    Keeps Derives (select cond yes no kind) := by
  intro s
  refine derives_composes.liftBind_final fun c hc => ?_
  refine derives_composes.liftBind_final fun a ha => derives_composes.liftBind_final fun b hb => ?_
  apply derives_derive
  simp only [symbols, List.mem_append]
  rintro i ((hi | hi) | hi)
  · exact symbols_truth_lt hc i hi
  · exact symbols_term_lt ha i hi
  · exact symbols_term_lt hb i hi

@[grind ←] theorem keeps_countBits (way : BitCount) (v : Scalar) (kind : Kind) :
    Keeps Derives (countBits way v kind) := by
  intro s
  refine derives_composes.liftBind_final fun t ht => ?_
  exact derives_derive fun i hi => symbols_term_lt ht i hi

end Store

attribute [grind .] Store.derives_composes

namespace Operator

@[grind ←] theorem keeps_binary (op : BinOp) (lhs rhs : Scalar) (kind : Kind)
    (rhsKind : Option Kind) : Keeps Store.Derives (binary op lhs rhs kind rhsKind) := by
  unfold binary
  grind

@[grind ←] theorem keeps_overflowing (op : BinOp) (lhs rhs : Scalar) (kind : Kind)
    (rhsKind : Option Kind) : Keeps Store.Derives (overflowing op lhs rhs kind rhsKind) := by
  unfold overflowing
  grind

@[grind ←] theorem keeps_unary (op : UnOp) (v : Scalar) (kind : Kind) :
    Keeps Store.Derives (unary op v kind) := by
  unfold unary
  grind

end Operator

namespace Cast

theorem keeps_symbolic (cells : List Cell) (source dest : Ty) :
    Keeps Store.Derives (symbolic cells source dest) := by
  unfold symbolic
  grind

theorem keeps_cast (v : Scalar) (source dest : Ty) : Keeps Store.Derives (cast v source dest) := by
  unfold cast
  cases v with
  | cells list => exact keeps_symbolic list source dest
  | bits | ptr | undef => grind

end Cast

/-! ## Histories of a store -/

namespace Store

variable {s : Store}

theorem Scoped.extend_derived {n : Nat} {t : Term (8 * n)} (h : s.Scoped)
    (ht : ∀ i ∈ t.symbols, i < s.size) : (s.extend [.derived n t]).Scoped := by
  intro d hd
  rw [definitions_extend_derived, List.mem_append, List.mem_singleton] at hd
  rcases hd with hd | rfl
  · exact h d hd
  · exact ht

theorem Scoped.extend_input {n : Nat} (h : s.Scoped) : (s.extend [.input n]).Scoped := by
  intro d hd
  rw [definitions_extend_input] at hd
  exact h d hd

theorem Derives.scoped {s' : Store} (h : s.Derives s') (hs : s.Scoped) : s'.Scoped := by
  induction h with
  | refl => exact hs
  | tail _ hstep ih =>
    obtain ⟨n, t, hscope, -⟩ := hstep
    exact ih.extend_derived hscope

/-- An operation that changes a store. -/
inductive Op where
  | fresh (n : Int)
  | binary (op : BinOp) (lhs rhs : Scalar) (kind : Kind) (rhsKind : Option Kind)
  | overflowing (op : BinOp) (lhs rhs : Scalar) (kind : Kind)
  | select (cond yes no : Scalar) (kind : Kind)
  | countBits (way : BitCount) (v : Scalar) (kind : Kind)
  | require (c : Condition)

def Op.run : Op → Run Store Unit
  | fresh n => do let _ ← Store.fresh n
  | binary op lhs rhs kind rhsKind => do let _ ← Store.binary op lhs rhs kind rhsKind
  | overflowing op lhs rhs kind => do let _ ← Store.overflowing op lhs rhs kind
  | select cond yes no kind => do let _ ← Store.select cond yes no kind
  | countBits way v kind => do let _ ← Store.countBits way v kind
  | require c => Store.require c

def after (ops : List Op) : Store := ops.foldl (fun s op => op.run.final s) {}

/-- What is done with stores that exist side by side: an operation on one, or a copy of one. -/
inductive Move where
  | change (k : Nat) (op : Op)
  | copy (k : Nat)

def Move.run (stores : List Store) : Move → List Store
  | change k op => stores.modify k op.run.final
  | copy k => stores ++ stores[k]?.toList

/-- A copy and what it was made of go on independently: every store is what operations on an empty one
lead to. -/
theorem exists_after_of_moves (moves : List Move) :
    ∀ s ∈ moves.foldl Move.run [{}], ∃ ops, s = after ops := by
  have hfold : ∀ stores : List Store, (∀ s ∈ stores, ∃ ops, s = after ops) →
      ∀ s ∈ moves.foldl Move.run stores, ∃ ops, s = after ops := by
    induction moves with
    | nil => exact fun stores h => h
    | cons move moves ih =>
      refine fun stores h => ih _ fun s hs => ?_
      cases move with
      | change k op =>
        obtain ⟨i, hi⟩ := List.mem_iff_getElem?.1 hs
        rw [Move.run, List.getElem?_modify] at hi
        obtain ⟨s0, hs0, rfl⟩ := Option.map_eq_some_iff.1 hi
        obtain ⟨ops, rfl⟩ := h s0 (List.mem_of_getElem? hs0)
        split
        · exact ⟨ops ++ [op], by simp [after]⟩
        · exact ⟨ops, rfl⟩
      | copy k =>
        rcases List.mem_append.1 hs with hs | hs
        · exact h s hs
        · exact h s (List.mem_of_getElem? (Option.mem_toList.1 hs))
  refine hfold [{}] fun s hs => ⟨[], ?_⟩
  rw [List.mem_singleton.1 hs]
  rfl

theorem scoped_run (op : Op) (h : s.Scoped) : (op.run.final s).Scoped := by
  cases op with
  | fresh n => exact h.extend_input
  | require c => exact h
  | binary op lhs rhs kind rhsKind =>
    exact (derives_composes.bind (keeps_binary op lhs rhs kind rhsKind) (by grind) s).scoped h
  | overflowing op lhs rhs kind =>
    exact (derives_composes.bind (keeps_overflowing op lhs rhs kind) (by grind) s).scoped h
  | select cond yes no kind =>
    exact (derives_composes.bind (keeps_select cond yes no kind) (by grind) s).scoped h
  | countBits way v kind =>
    exact (derives_composes.bind (keeps_countBits way v kind) (by grind) s).scoped h

theorem scoped_after (ops : List Op) : (after ops).Scoped := by
  have hfold : ∀ (s : Store), s.Scoped → (ops.foldl (fun s op => op.run.final s) s).Scoped := by
    induction ops with
    | nil => exact fun s h => h
    | cons op ops ih => exact fun s h => ih _ (scoped_run op h)
  exact hfold {} (by simp [Scoped, definitions, placed])

/-- Definitions are a conservative extension of the inputs, after any operations: every byte is an
input or belongs to the block of exactly one definition, whose term speaks of bytes before the
block; so the inputs have exactly one extension that satisfies all definitions. The value of a term
is a number, which it has under every valuation, and nothing is recorded; or it is fresh bytes with
one new definition. -/
theorem definitions_conservative (ops : List Op) :
    let s := after ops
    (∀ i < s.size,
      (i ∈ s.inputs ∧ s.definitions.countP (·.covers i) = 0) ∨
      (i ∉ s.inputs ∧ s.definitions.countP (·.covers i) = 1)) ∧
    (∀ d ∈ s.definitions, ∀ i ∈ d.term.symbols, i < d.start) ∧
    (∀ input : Nat → BitVec 8,
      (s.Agrees input (s.valuation input) ∧ ∀ d ∈ s.definitions, d.satisfied (s.valuation input)) ∧
      ∀ v, s.Agrees input v → (∀ d ∈ s.definitions, d.satisfied v) →
        ∀ i < s.size, v i = s.valuation input i) ∧
    (∀ (kind : Kind) (t : Term kind.bits),
      (∃ p, derive kind t s = .ok (.bits p) s ∧ ∀ v, t.eval v = p.setWidth kind.bits) ∨
      (∃ s', derive kind t s = .ok (.cells (cellsFrom s.size kind.numBytes)) s' ∧
        s'.size = s.size + kind.numBytes ∧ s'.inputs = s.inputs ∧ s'.path = s.path ∧
        s'.definitions = s.definitions ++ [⟨s.size, kind.numBytes, t⟩])) := by
  intro s
  have hscoped : s.Scoped := scoped_after ops
  refine ⟨fun i hi => input_or_defined hi, hscoped, fun input => ⟨⟨agrees_valuation s input,
    satisfied_valuation hscoped input⟩, fun v => eq_valuation_of_satisfied hscoped⟩, ?_⟩
  intro kind t
  obtain ⟨c, hc, hderive⟩ | ⟨-, hderive⟩ := derive_cases kind t s
  · obtain ⟨p, hp, hlow⟩ := Scalar.ofBits_eq_bits c.toNat kind
    refine .inl ⟨p, hp ▸ hderive, fun v => ?_⟩
    rw [hc, hlow]
    simp
  · exact .inr ⟨_, hderive, size_extend_one _ _, inputs_extend_derived s kind.numBytes t, rfl,
      definitions_extend_derived s kind.numBytes t⟩

end Store
end SymExec

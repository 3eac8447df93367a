import SymExec.Proofs.Casting

/-!
# Operations on words

A value of a kind, known or symbolic, is a word of the width of the kind under values of the symbolic
bytes (`Scalar.word?`). What an operation gives, whether it is computed or recorded, is the word that the
operation gives on the words of its operands, under all values that agree with what the store records
then (`Operator.fetch_word`, `Operator.equal_word`, `Store.select_word`).
-/
namespace SymExec

open Run

/-! ## Values as words -/

namespace Scalar

variable {s s' : Store} {kind : Kind} {a : Scalar}

/-- The word that a value of a kind is under values of the symbolic bytes. -/
def word? (v : Valuation) (kind : Kind) : Scalar → Option (BitVec kind.bits)
  | bits p => some (p.setWidth kind.bits)
  | cells list => some (BitVec.ofNat kind.bits (Cell.valueOf v list))
  | ptr _ | undef => none

theorem word?_ofBits (v : Valuation) (value : Int) (kind : Kind) :
    (ofBits value kind).word? v kind = some (BitVec.ofInt kind.bits value) := by
  obtain ⟨p, hp, hlow⟩ := ofBits_eq_bits value kind
  rw [hp, word?, hlow]

theorem word?_toNat (v : Valuation) (x : BitVec kind.bits) :
    (ofBits x.toNat kind).word? v kind = some x := by
  rw [word?_ofBits, BitVec.ofInt_natCast, BitVec.ofNat_toNat, BitVec.setWidth_eq]

theorem word?_ofBool (v : Valuation) (b : Bool) :
    (ofBool b).word? v .bool = some (if b then 1#_ else 0#_) := by
  cases b <;> rfl

/-- A value and what it is under values of the symbolic bytes are the same word. -/
theorem word?_under (v v' : Valuation) (a : Scalar) (kind : Kind) :
    (a.under v kind).word? v' kind = a.word? v kind := by
  cases a with
  | cells list => rw [under, word?_ofBits, BitVec.ofInt_natCast, word?]
  | bits | ptr | undef => rfl

theorem word?_ofCells (v : Valuation) (list : List Cell) (kind : Kind) :
    (ofCells list kind).word? v kind = some (BitVec.ofNat kind.bits (Cell.valueOf v list)) := by
  rw [← word?_under v v, under_ofCells, word?_ofBits, BitVec.ofInt_natCast]

theorem Fits.exists_word (h : a.Fits s kind) (v : Valuation) : ∃ x, a.word? v kind = some x := by
  cases h <;> exact ⟨_, rfl⟩

theorem Fits.mono (h : a.Fits s kind) (hle : s.size ≤ s'.size) : a.Fits s' kind := by
  cases h with
  | bits p => exact .bits p
  | cells hlength hscope => exact .cells hlength fun i hi => Nat.lt_of_lt_of_le (hscope i hi) hle

end Scalar

/-! ## Recorded values -/

namespace Store

variable {s s' : Store} {kind : Kind}

theorem symbols_cellsFrom_eq (start n : Nat) :
    Cell.symbols (cellsFrom start n) = (List.range n).map fun j => start + j := by
  rw [cellsFrom, Cell.symbols, List.filterMap_map, ← List.filterMap_eq_map]
  rfl

theorem Derives.mem_definitions (h : s.Derives s') {d : Definition} (hd : d ∈ s.definitions) :
    d ∈ s'.definitions := by
  induction h with
  | refl => exact hd
  | tail _ hstep ih =>
    obtain ⟨n, t, -, -⟩ := hstep
    rw [definitions_extend_derived]
    exact List.mem_append_left _ ih

theorem fits_of_derive {t : Term kind.bits} {r : Scalar} (h : derive kind t s = .ok r s') :
    r.Fits s' kind := by
  obtain ⟨c, -, hderive⟩ | ⟨-, hderive⟩ := derive_cases kind t s
  · cases hderive.symm.trans h
    exact .bits _
  · cases hderive.symm.trans h
    refine .cells (by simp [cellsFrom]) fun i hi => ?_
    obtain ⟨j, hj, ⟨⟩⟩ := List.mem_map.1 (symbols_cellsFrom_eq s.size kind.numBytes ▸ hi)
    rw [size_extend_one]
    exact Nat.add_lt_add_left (List.mem_range.1 hj) _

theorem derive_word (kind : Kind) (t : Term kind.bits) (s : Store) : ∃ r s',
    derive kind t s = .ok r s' ∧ r.Fits s' kind ∧
      ∀ v, s'.Satisfied v → r.word? v kind = some (t.eval v) := by
  obtain ⟨r, s', hderive, hunder⟩ := derive_under kind t s
  refine ⟨r, s', hderive, fits_of_derive hderive, fun v hv => ?_⟩
  rw [← Scalar.word?_under v v, hunder v hv, Scalar.word?_toNat]

theorem exists_term_word {a : Scalar} (h : a.Fits s kind) : ∃ t, s.term a kind = .ok t ∧
    ∀ v, a.word? v kind = some (t.eval v) := by
  obtain ⟨t, ht, heval⟩ := term_of_fits h
  refine ⟨t, ht, fun v => ?_⟩
  obtain ⟨p, hp, hword⟩ := heval v
  rw [← Scalar.word?_under v v, hp, hword]
  rfl

/-- What is recorded for a choice is the word that the condition chooses. -/
theorem select_word {cond yes no : Scalar} (hcond : cond.Fits s .bool) (hyes : yes.Fits s kind)
    (hno : no.Fits s kind) : ∃ r s', select cond yes no kind s = .ok r s' ∧ s.Derives s' ∧
      r.Fits s' kind ∧ ∀ v, s'.Satisfied v →
        r.word? v kind = if cond.word? v .bool = some 0#_ then no.word? v kind else yes.word? v kind := by
  obtain ⟨t, ht, hcondWord⟩ := exists_term_word hcond
  obtain ⟨a, ha, hyesWord⟩ := exists_term_word hyes
  obtain ⟨b, hb, hnoWord⟩ := exists_term_word hno
  obtain ⟨r, s', hderive, hfits, hr⟩ := derive_word kind (.choose (.differ t (.const 0)) a b) s
  have htruth : s.truth cond = .ok (.differ t (.const 0)) := bind_iff.2 ⟨t, ht, rfl⟩
  have hselect : select cond yes no kind s = .ok r s' := by
    refine bind_eq_ok.2 ⟨s, s, rfl, bind_eq_ok.2 ⟨_, s, of_eq_ok.2 ⟨htruth, rfl⟩, ?_⟩⟩
    refine bind_eq_ok.2 ⟨a, s, of_eq_ok.2 ⟨ha, rfl⟩, ?_⟩
    exact bind_eq_ok.2 ⟨b, s, of_eq_ok.2 ⟨hb, rfl⟩, hderive⟩
  have hderives : s.Derives s' := by
    have hkeeps := keeps_select cond yes no kind s
    rwa [final_of_ok hselect] at hkeeps
  refine ⟨r, s', hselect, hderives, hfits, fun v hv => ?_⟩
  have hholds : (Term.differ t (.const 0)).holds v = (t.eval v != 0#_) := Term.holds_differ v t (.const 0)
  rw [hr v hv, hcondWord v, hyesWord v, hnoWord v, Term.eval, Term.eval_of_holds, hholds]
  by_cases hzero : t.eval v = 0#_
  · rw [hzero, if_pos rfl]
    rfl
  · rw [if_neg fun h => hzero (Option.some.inj h), bne_iff_ne.2 hzero]
    rfl

theorem binary_word {op : BinOp} {lhs rhs : Scalar} {rhsKind : Option Kind} {a b : Term kind.bits}
    (ha : s.term lhs kind = .ok a) (hb : s.secondOperand op rhs kind (rhsKind.getD kind) = .ok b) :
    ∃ r s', binary op lhs rhs kind rhsKind s = .ok r s' ∧ r.Fits s' (op.resultKind kind) ∧
      ∀ v, s'.Satisfied v → r.word? v (op.resultKind kind)
        = ((combine kind.isSigned op a b).value v kind).word? v (op.resultKind kind) := by
  obtain ⟨r, s', hbinary, hunder⟩ := binary_under ha hb
  refine ⟨r, s', hbinary, ?_, fun v hv => ?_⟩
  · rw [binary_of_terms ha hb] at hbinary
    cases hc : combine kind.isSigned op a b with
    | word t =>
      have hkind : op.resultKind kind = kind := by
        cases op <;> first | rfl | cases hc
      rw [hc] at hbinary
      rw [hkind]
      exact fits_of_derive hbinary
    | truth c =>
      have hkind : op.resultKind kind = .bool := by
        cases op <;> first | rfl | cases hc
      rw [hc] at hbinary
      rw [hkind]
      exact fits_of_derive hbinary
  · rw [← Scalar.word?_under v v, hunder v hv]

end Store

/-! ## Operators -/

def FetchOp.onWords {w : Nat} (op : FetchOp) (x y : BitVec w) : BitVec w :=
  match op with
  | .or => x ||| y
  | .xor => x ^^^ y
  | .and => x &&& y
  | .add => x + y
  | .sub => x - y

namespace Operator

variable {s : Store} {kind : Kind} {op : BinOp} {lhs rhs : Scalar}

/-- Known words are combined to a known one, whatever the symbolic bytes are. -/
theorem binary_word_bits (hshift : op.isShift = false) (hdivides : ¬ (op = .div ∨ op = .rem))
    (hfloat : kind.isFloat = false) (p q : BitVec 128) (s : Store) : ∃ r,
    binary op (.bits p) (.bits q) kind none s = .ok r s ∧ r.Fits s (op.resultKind kind) ∧
      ∀ v, r = (Store.combine kind.isSigned op (.const (p.setWidth kind.bits))
        (.const (q.setWidth kind.bits))).value v kind := by
  let x : Term kind.bits := .const (p.setWidth kind.bits)
  let y : Term kind.bits := .const (q.setWidth kind.bits)
  have hvalue (v : Valuation) :
      onPatterns op p q kind none = .ok ((Store.combine kind.isSigned op x y).value v kind) := by
    have hx : x.eval v = p.setWidth kind.bits := rfl
    have hy : Spells op q (y.eval v) := by
      rw [Spells, hshift]
      rfl
    rw [onPatterns_combine hfloat hx hy, if_neg fun h => hdivides h.1]
  refine ⟨(Store.combine kind.isSigned op x y).value (fun _ => 0) kind, ?_, ?_, fun v => ?_⟩
  · rw [binary_bits, hvalue fun _ => 0]
    rfl
  · cases Store.combine kind.isSigned op x y <;> exact .bits _
  · exact Except.ok.inj ((hvalue fun _ => 0).symm.trans (hvalue v))

/-- An operator that neither shifts nor divides makes of two words what its term says, whether they are
known or not. -/
theorem binary_word (hshift : op.isShift = false) (hdivides : ¬ (op = .div ∨ op = .rem))
    (hfloat : kind.isFloat = false) (hl : lhs.Fits s kind) (hr : rhs.Fits s kind) : ∃ r s',
    binary op lhs rhs kind none s = .ok r s' ∧ s.Derives s' ∧ r.Fits s' (op.resultKind kind) ∧
      ∀ v, s'.Satisfied v → ∃ a b : Term kind.bits,
        lhs.word? v kind = some (a.eval v) ∧ rhs.word? v kind = some (b.eval v) ∧
        r.word? v (op.resultKind kind)
          = ((Store.combine kind.isSigned op a b).value v kind).word? v (op.resultKind kind) := by
  by_cases hsymbolic : (lhs.isSymbolic || rhs.isSymbolic) = true
  · have hsecond : op.secondKind kind none = kind := by
      rw [BinOp.secondKind, hshift]
      rfl
    obtain ⟨a, ha, hleft⟩ := Store.exists_term_word hl
    have hr' : rhs.Fits s (op.secondKind kind none) := by rwa [hsecond]
    obtain ⟨b, hb, hspells⟩ := Store.secondOperand_of_fits hr' fun _ => rfl
    obtain ⟨r, s', hrecord, hfits, hword⟩ := Store.binary_word ha hb
    have hbinary : binary op lhs rhs kind none s = .ok r s' :=
      ((binary_eq hfloat hl hr hsymbolic).2 fun h => hdivides h.1).trans hrecord
    have hderives : s.Derives s' := by
      have hkeeps := keeps_binary op lhs rhs kind none s
      rwa [final_of_ok hbinary] at hkeeps
    refine ⟨r, s', hbinary, hderives, hfits, fun v hv => ⟨a, b, hleft v, ?_, hword v hv⟩⟩
    obtain ⟨q, hq, hlow⟩ := hspells v
    rw [hsecond] at hq
    rw [Spells, hshift] at hlow
    rw [← Scalar.word?_under v v, hq, Scalar.word?, show b.eval v = q.setWidth kind.bits from hlow]
  · cases hl with
    | cells => exact absurd rfl hsymbolic
    | bits p =>
      cases hr with
      | cells => exact absurd rfl hsymbolic
      | bits q =>
        obtain ⟨r, hbinary, hfits, hvalue⟩ := binary_word_bits hshift hdivides hfloat p q s
        exact ⟨r, s, hbinary, .refl, hfits, fun v _ => ⟨_, _, rfl, rfl, congrArg _ (hvalue v)⟩⟩

theorem fetch_word (op : FetchOp) (hfloat : kind.isFloat = false) (hl : lhs.Fits s kind)
    (hr : rhs.Fits s kind) : ∃ r s', binary op.op lhs rhs kind none s = .ok r s' ∧ s.Derives s' ∧
      r.Fits s' kind ∧ ∀ v, s'.Satisfied v → ∃ x y,
        lhs.word? v kind = some x ∧ rhs.word? v kind = some y ∧
        r.word? v kind = some (op.onWords x y) := by
  have hshift : op.op.isShift = false := by cases op <;> rfl
  have hdivides : ¬ (op.op = .div ∨ op.op = .rem) := by cases op <;> decide
  have hkind : op.op.resultKind kind = kind := by cases op <;> rfl
  obtain ⟨r, s', hbinary, hderives, hfits, hword⟩ := binary_word hshift hdivides hfloat hl hr
  rw [hkind] at hfits hword
  refine ⟨r, s', hbinary, hderives, hfits, fun v hv => ?_⟩
  obtain ⟨a, b, ha, hb, hvalue⟩ := hword v hv
  refine ⟨_, _, ha, hb, hvalue.trans ?_⟩
  cases op <;> exact Scalar.word?_toNat v _

/-- A comparison for equality gives one if its operands are the same word, else zero. -/
theorem equal_word (hfloat : kind.isFloat = false) (hl : lhs.Fits s kind) (hr : rhs.Fits s kind) :
    ∃ r s', binary .eq lhs rhs kind none s = .ok r s' ∧ s.Derives s' ∧ r.Fits s' .bool ∧
      ∀ v, s'.Satisfied v → ∃ x y,
        lhs.word? v kind = some x ∧ rhs.word? v kind = some y ∧
        r.word? v .bool = some (if x = y then 1#_ else 0#_) := by
  have hshift : BinOp.eq.isShift = false := rfl
  obtain ⟨r, s', hbinary, hderives, hfits, hword⟩ := binary_word hshift (by decide) hfloat hl hr
  refine ⟨r, s', hbinary, hderives, hfits, fun v hv => ?_⟩
  obtain ⟨a, b, ha, hb, hvalue⟩ := hword v hv
  refine ⟨_, _, ha, hb, hvalue.trans ?_⟩
  have hholds : (Term.equal a b).holds v = (a.eval v == b.eval v) := Term.holds_equal v a b
  change (Scalar.ofBool ((Term.equal a b).holds v)).word? v .bool = _
  rw [hholds, Scalar.word?_ofBool]
  by_cases hsame : a.eval v = b.eval v
  · rw [if_pos hsame, if_pos (beq_iff_eq.2 hsame)]
  · rw [if_neg hsame, if_neg (by simpa using hsame)]

end Operator
end SymExec

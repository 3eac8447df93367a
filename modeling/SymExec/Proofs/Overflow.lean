import SymExec.Proofs.Operation

/-!
# Checks for overflow

An addition, subtraction or multiplication of symbolic values records two terms: the result at the
width of the kind, and the question whether the exact result, which twice the width can hold, is another
number. Under all values of the symbolic bytes that agree with what the store records, the first one is
the wrapped result on the values of the operands, and the second one says that the exact result is no
number of the kind (`Operator.overflowing_agrees`). The check of a shift looks at the amount alone.
-/
namespace SymExec

open Run

/-- What an operator with a check for overflow gives on numbers, before it is wrapped. -/
def BinOp.onNumbers? : BinOp → Option (Int → Int → Int)
  | .add => some fun a b => a + b
  | .sub => some fun a b => a - b
  | .mul => some fun a b => a * b
  | _ => none

namespace Operator

variable {s : Store} {kind : Kind} {op : BinOp}
variable {rhsKind : Option Kind} {exact : Int → Int → Int}

/-! ## Arithmetic -/

theorem overflows_of_onNumbers (h : op.onNumbers? = some exact) :
    ∃ wordOp, Overflows op wordOp exact := by
  cases op with
  | add =>
    cases h
    exact ⟨_, overflows_add⟩
  | sub =>
    cases h
    exact ⟨_, overflows_sub⟩
  | mul =>
    cases h
    exact ⟨_, overflows_mul⟩
  | _ => cases h

/-- What is recorded for two operands stands for the wrapped result on their values and whether that
overflowed. -/
theorem recorded_under {wordOp : WordOp} (hop : Wraps wordOp exact) {lhs rhs : Scalar}
    (hl : lhs.Fits s kind) (hr : rhs.Fits s kind) : ∃ r f s',
    recorded wordOp lhs rhs kind s = .ok (r, f) s' ∧ ∀ v, s'.Satisfied v →
      ∃ p q, lhs.under v kind = .bits p ∧ rhs.under v kind = .bits q ∧
        wrapped exact p q kind = (r.under v kind, f.under v .bool) := by
  obtain ⟨a, ha, hleft⟩ := Store.term_of_fits hl
  obtain ⟨b, hb, hright⟩ := Store.term_of_fits hr
  obtain ⟨r, s1, hresult, hr'⟩ := Store.derive_under kind (.binary wordOp a b) s
  obtain ⟨f, s', hflag, hkept, hf⟩ := Store.deriveTruth_under
    (.differ (Store.widen kind.isSigned (.binary wordOp a b))
      (.binary wordOp (Store.widen kind.isSigned a) (Store.widen kind.isSigned b))) s1
  refine ⟨r, f, s', ?_, fun v hv => ?_⟩
  · refine bind_eq_ok.2 ⟨s, s, rfl, bind_eq_ok.2 ⟨a, s, of_eq_ok.2 ⟨ha, rfl⟩, ?_⟩⟩
    refine bind_eq_ok.2 ⟨b, s, of_eq_ok.2 ⟨hb, rfl⟩, bind_eq_ok.2 ⟨r, s1, hresult, ?_⟩⟩
    exact bind_eq_ok.2 ⟨f, s', hflag, rfl⟩
  · obtain ⟨p, hp, haeval⟩ := hleft v
    obtain ⟨q, hq, hbeval⟩ := hright v
    -- what held after the first term was recorded still does after the second one
    have hfirst : ∀ d ∈ s1.definitions, d.satisfied v := fun d hd => hv d (hkept d hd)
    refine ⟨p, q, hp, hq, ?_⟩
    rw [wrapped_eq hop haeval hbeval, hr' v hfirst, hf v hv]

/-- A result that is wrapped differs from the exact one if that is no number of the kind. -/
theorem wrapped_flag (exact : Int → Int → Int) (p q : BitVec 128) (kind : Kind) :
    (wrapped exact p q kind).2 = .ofBool (decide ¬ (
      kind.least ≤ exact (Scalar.numberOf kind p) (Scalar.numberOf kind q) ∧
      exact (Scalar.numberOf kind p) (Scalar.numberOf kind q) ≤ kind.greatest)) := by
  refine congrArg Scalar.ofBool ?_
  rw [Bool.eq_iff_iff, bne_iff_ne, decide_eq_true_iff, ← Kind.number_ofInt_eq_iff]

theorem overflowing_exact (hexact : op.onNumbers? = some exact) {lhs rhs : Scalar}
    (hl : lhs.Fits s kind) (hr : rhs.Fits s kind)
    (hsymbolic : (lhs.isSymbolic || rhs.isSymbolic)) :
    ∃ r f s', overflowing op lhs rhs kind rhsKind s = .ok (r, f) s' ∧
      ∀ v, s'.Satisfied v →
        (∀ s0, overflowing op (lhs.under v kind) (rhs.under v kind) kind rhsKind s0
          = .ok (r.under v kind, f.under v .bool) s0) ∧
        ∃ x y, (lhs.under v kind).toNumber kind = .ok x ∧ (rhs.under v kind).toNumber kind = .ok y ∧
          r.under v kind = .ofBits (exact x y) kind ∧
          f.under v .bool
            = .ofBool (decide ¬ (kind.least ≤ exact x y ∧ exact x y ≤ kind.greatest)) := by
  obtain ⟨wordOp, hop⟩ := overflows_of_onNumbers hexact
  obtain ⟨r, f, s', hrecorded, hunder⟩ := recorded_under hop.wraps hl hr
  have hundef : (lhs.isUndef || rhs.isUndef) = false := by rw [hl.isUndef, hr.isUndef]; rfl
  have hptr : (lhs.isPtr || rhs.isPtr) = false := by rw [hl.isPtr, hr.isPtr]; rfl
  refine ⟨r, f, s', ?_, fun v hv => ?_⟩
  · rw [hop.eq _ _ _ _ hundef hptr, if_pos hsymbolic]
    exact hrecorded
  · obtain ⟨p, q, hp, hq, hwrapped⟩ := hunder v hv
    obtain ⟨hresult, hflag⟩ := Prod.mk.inj hwrapped
    rw [hp, hq]
    refine ⟨fun s0 => ?_, _, _, rfl, rfl, hresult.symm, ?_⟩
    · rw [hop.bits, hwrapped]
      rfl
    · rw [← hflag, ← wrapped_flag]
      rfl

/-! ## Shifts -/

theorem overflowing_of_shift {lhs r : Scalar} {s' : Store} {amount : BitVec 128}
    (hshift : op.isShift) (hl : lhs.Fits s kind)
    (h : binary op lhs (.bits amount) kind rhsKind s = .ok r s') :
    overflowing op lhs (.bits amount) kind rhsKind s
      = .ok (r, .ofBool (kind.bits ≤ (amount.setWidth (rhsKind.getD kind).bits).toNat)) s' := by
  have hundef : (lhs.isUndef || (Scalar.bits amount).isUndef) = false := by rw [hl.isUndef]; rfl
  have hptr : (lhs.isPtr || (Scalar.bits amount).isPtr) = false := by rw [hl.isPtr]; rfl
  rw [overflowing_of_isShift hshift hundef hptr]
  exact bind_eq_ok.2 ⟨r, s', h, rfl⟩

theorem overflowing_shift {lhs : Scalar} (hfloat : kind.isFloat = false) (hshift : op.isShift)
    (hl : lhs.Fits s kind) (hsymbolic : lhs.isSymbolic) (amount : BitVec 128) :
    let flag := Scalar.ofBool (kind.bits ≤ (amount.setWidth (rhsKind.getD kind).bits).toNat)
    ∃ r s', overflowing op lhs (.bits amount) kind rhsKind s = .ok (r, flag) s' ∧
      ∀ v, s'.Satisfied v → ∀ s0,
        overflowing op (lhs.under v kind) (.bits amount) kind rhsKind s0
          = .ok (r.under v kind, flag) s0 := by
  have hdivides (b : Scalar) : ¬ DividesByZero op kind b := by
    rintro ⟨rfl | rfl, -⟩ <;> cases hshift
  have hresult : op.resultKind kind = kind := by
    cases op <;> first | rfl | cases hshift
  have hkind : op.isShift = false → (rhsKind.getD kind).bits = kind.bits := fun h => by
    rw [hshift] at h
    cases h
  have heither : (lhs.isSymbolic || (Scalar.bits amount).isSymbolic) = true := by
    rw [hsymbolic]
    rfl
  obtain ⟨r, s', hbinary, hagrees⟩ :=
    binary_agrees hfloat hl (.bits amount) hkind heither (hdivides _)
  refine ⟨r, s', overflowing_of_shift hshift hl hbinary, fun v hv s0 => ?_⟩
  have hvalue := (hagrees v hv).1 (hdivides _) s0
  rw [hresult] at hvalue
  exact overflowing_of_shift hshift (hl.under v s0) hvalue

/-! ## All operators with a check -/

/-- An operator with a check for overflow gives a result and a flag on symbolic operands of a kind.
Under all values that agree with the definitions these are the wrapped result on the values of the
operands and one exactly if the exact result is no number of the kind. A shift by a known amount gives
the shifted value, and the flag is one exactly if the amount, at its own kind, is not below the width. -/
theorem overflowing_agrees (hfloat : kind.isFloat = false) (s : Store) (rhsKind : Option Kind) :
    (∀ (op : BinOp) (exact : Int → Int → Int) (lhs rhs : Scalar), op.onNumbers? = some exact →
      lhs.Fits s kind → rhs.Fits s kind → (lhs.isSymbolic || rhs.isSymbolic) = true →
      ∃ r f s', overflowing op lhs rhs kind rhsKind s = .ok (r, f) s' ∧
        ∀ v, (∀ d ∈ s'.definitions, d.satisfied v) →
          (∀ s0, overflowing op (lhs.under v kind) (rhs.under v kind) kind rhsKind s0
            = .ok (r.under v kind, f.under v .bool) s0) ∧
          ∃ x y, (lhs.under v kind).toNumber kind = .ok x ∧
            (rhs.under v kind).toNumber kind = .ok y ∧
            r.under v kind = .ofBits (exact x y) kind ∧
            f.under v .bool
              = .ofBool (decide ¬ (kind.least ≤ exact x y ∧ exact x y ≤ kind.greatest))) ∧
    (∀ (op : BinOp) (lhs : Scalar) (amount : BitVec 128), op.isShift = true →
      lhs.Fits s kind → lhs.isSymbolic = true →
      let flag := Scalar.ofBool (kind.bits ≤ (amount.setWidth (rhsKind.getD kind).bits).toNat)
      ∃ r s', overflowing op lhs (.bits amount) kind rhsKind s = .ok (r, flag) s' ∧
        ∀ v, (∀ d ∈ s'.definitions, d.satisfied v) → ∀ s0,
          overflowing op (lhs.under v kind) (.bits amount) kind rhsKind s0
            = .ok (r.under v kind, flag) s0) := by
  constructor
  · intro op exact lhs rhs hexact hl hr hsymbolic
    exact overflowing_exact hexact hl hr hsymbolic
  · intro op lhs amount hshift hl hsymbolic
    exact overflowing_shift hfloat hshift hl hsymbolic amount

/-- Two symbolic bytes are multiplied as signed numbers, and one of them is shifted by 8. -/
theorem overflowing_agrees_sample :
    let s : Store := { segments := [.input 2] }
    let kind : Kind := .int .w8 true
    let x : Scalar := .cells [.symbol 0]
    let y : Scalar := .cells [.symbol 1]
    x.Fits s kind ∧ y.Fits s kind ∧
    (∃ r f s', overflowing .mul x y kind none s = .ok (r, f) s' ∧
      ∀ v, (∀ d ∈ s'.definitions, d.satisfied v) →
        (∀ s0, overflowing .mul (x.under v kind) (y.under v kind) kind none s0
          = .ok (r.under v kind, f.under v .bool) s0) ∧
        ∃ m n, (x.under v kind).toNumber kind = .ok m ∧ (y.under v kind).toNumber kind = .ok n ∧
          r.under v kind = .ofBits (m * n) kind ∧
          f.under v .bool = .ofBool (decide ¬ (-128 ≤ m * n ∧ m * n ≤ 127))) ∧
    (∃ r s', overflowing .shl x (.bits 8) kind none s = .ok (r, .bits 1) s' ∧
      ∀ v, (∀ d ∈ s'.definitions, d.satisfied v) → ∀ s0,
        overflowing .shl (x.under v kind) (.bits 8) kind none s0
          = .ok (r.under v kind, .bits 1) s0) := by
  intro s kind x y
  have hx : x.Fits s kind := .cells rfl (by decide)
  have hy : y.Fits s kind := .cells rfl (by decide)
  have hfloat : kind.isFloat = false := rfl
  have hagrees := overflowing_agrees hfloat s none
  exact ⟨hx, hy, hagrees.1 .mul _ x y rfl hx hy rfl, hagrees.2 .shl x 8 rfl hx rfl⟩

end Operator
end SymExec

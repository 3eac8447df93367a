import SymExec.Proofs.Mirror.Operator

/-!
# Operations on symbolic values

An operation on symbolic values gives bytes that stand for a term. Under all values of the symbolic
bytes that agree with what the store records, they spell what the operation gives on the values of
the operands (`Operator.operations_agree`). Where the operation refuses a divisor, the term has the
value that bit-vector logic gives it.
-/
namespace SymExec

open Run

variable {other : Kind}

namespace Scalar

variable {list : List Cell}

/-- What an operand of a kind is under values of the symbolic bytes. Pointers stay as they are. -/
def under (v : Valuation) (kind : Kind) : Scalar → Scalar
  | cells list => ofBits (Cell.valueOf v list) kind
  | a => a

/-- An operand of a kind: a pattern, or as many cells as the kind has bytes, of bytes that the store
has. -/
inductive Fits (s : Store) (kind : Kind) : Scalar → Prop where
  | bits (p : BitVec 128) : Fits s kind (bits p)
  | cells {list : List Cell} (hlength : list.length = kind.numBytes)
    (hscope : ∀ i ∈ Cell.symbols list, i < s.size) : Fits s kind (cells list)

variable {s : Store} {kind : Kind} {a : Scalar}

theorem Fits.isUndef (h : a.Fits s kind) : a.isUndef = false := by
  cases h <;> rfl

theorem Fits.isPtr (h : a.Fits s kind) : a.isPtr = false := by
  cases h <;> rfl

theorem Fits.length_eq (h : (Scalar.cells list).Fits s kind) : list.length = kind.numBytes := by
  cases h with
  | cells hlength _ => exact hlength

theorem Fits.under (h : a.Fits s kind) (v : Valuation) (s0 : Store) :
    (a.under v kind).Fits s0 kind := by
  cases h with
  | bits p => exact .bits p
  | cells _ _ => exact .bits _

theorem setWidth_of_under {v : Valuation} {p : BitVec 128} (h : (cells list).under v kind = .bits p) :
    p.setWidth kind.bits = BitVec.ofNat kind.bits (Cell.valueOf v list) :=
  (setWidth_of_ofBits h).trans (BitVec.ofInt_natCast _ _)

theorem under_cells (v : Valuation) (list : List Cell) (kind : Kind) : ∃ p,
    (cells list).under v kind = .bits p ∧
      p.setWidth kind.bits = BitVec.ofNat kind.bits (Cell.valueOf v list) := by
  obtain ⟨p, hp, -⟩ := ofBits_eq_bits (Cell.valueOf v list) kind
  exact ⟨p, hp, setWidth_of_under hp⟩

end Scalar

/-! ## Operands -/

namespace Store

variable {s : Store} {kind : Kind} {a : Scalar}

theorem term_of_fits (h : a.Fits s kind) : ∃ t, s.term a kind = .ok t ∧
    ∀ v, ∃ p, a.under v kind = .bits p ∧ t.eval v = p.setWidth kind.bits := by
  cases h with
  | bits p => exact ⟨_, rfl, fun v => ⟨p, rfl, rfl⟩⟩
  | @cells list hlength hscope =>
    refine ⟨_, term_eq_ok.2 (.inr ⟨list, rfl, hlength, hscope, rfl⟩), fun v => ?_⟩
    obtain ⟨p, hp, hlow⟩ := Scalar.under_cells v list kind
    exact ⟨p, hp, hlow.symm⟩

theorem isSome_ofBytes (kind : Kind) : (Width.ofBytes? kind.numBytes).isSome := by
  cases kind with
  | int w _ => cases w <;> rfl
  | _ => rfl

theorem shiftAmount_of_fits (h : a.Fits s other) :
    ∃ t, s.shiftAmount a kind.bits = .ok t ∧
      ∀ v, ∃ p, a.under v other = .bits p ∧ (t.eval v).toNat = p.toNat % kind.bits := by
  cases h with
  | bits p => exact ⟨_, rfl, fun v => ⟨p, rfl, toNat_amount kind _⟩⟩
  | @cells list hlength hscope =>
    have hwidth : (Width.ofBytes? list.length).isSome := hlength ▸ isSome_ofBytes other
    refine ⟨_, shiftAmount_eq_ok.2 (.inr ⟨list, rfl, hwidth, hscope, rfl⟩), fun v => ?_⟩
    obtain ⟨p, hp, hlow⟩ := Scalar.under_cells v list other
    refine ⟨p, hp, (toNat_masked kind _).trans ?_⟩
    have hword : 256 ∣ 2 ^ other.bits := Nat.pow_dvd_pow 2 other.le_bits
    have hmod := congrArg BitVec.toNat hlow
    rw [BitVec.toNat_setWidth, BitVec.toNat_ofNat] at hmod
    rw [← Operator.mod_bits_of_dvd kind hword, ← hmod, Operator.mod_bits_of_dvd kind hword]

end Store

def BinOp.secondKind (op : BinOp) (kind : Kind) (rhsKind : Option Kind) : Kind :=
  if op.isShift then rhsKind.getD kind else kind

def BinOp.resultKind (op : BinOp) (kind : Kind) : Kind := if op.isComparison then .bool else kind

namespace Store

variable {s : Store} {kind : Kind} {a : Scalar}
variable {op : BinOp} {rhsKind : Option Kind} {lhs rhs : Scalar} {t : Term kind.bits}

theorem term_congr (hbits : other.bits = kind.bits) (h : s.term a kind = .ok t) :
    ∃ u, s.term a other = .ok u ∧ hbits ▸ u = t := by
  rcases term_eq_ok.1 h with ⟨p, rfl, rfl⟩ | ⟨list, rfl, hlength, hscope, rfl⟩
  · refine ⟨_, rfl, ?_⟩
    generalize other.bits = w at hbits
    subst hbits
    rfl
  · have hbytes : list.length = other.numBytes := by
      unfold Kind.bits at hbits
      omega
    refine ⟨_, term_eq_ok.2 (.inr ⟨list, rfl, hbytes, hscope, rfl⟩), ?_⟩
    generalize other.bits = w at hbits
    subst hbits
    rfl

theorem secondOperand_of_fits (h : a.Fits s (op.secondKind kind rhsKind))
    (hkind : op.isShift = false → (rhsKind.getD kind).bits = kind.bits) :
    ∃ t, s.secondOperand op a kind (rhsKind.getD kind) = .ok t ∧
      ∀ v, ∃ q, a.under v (op.secondKind kind rhsKind) = .bits q ∧
        Operator.Spells op q (t.eval v) := by
  unfold secondOperand Operator.Spells
  unfold BinOp.secondKind at h ⊢
  cases hshift : op.isShift with
  | true =>
    simp only [hshift, if_true] at h ⊢
    exact shiftAmount_of_fits h
  | false =>
    simp only [hshift, Bool.false_eq_true, if_false] at h ⊢
    obtain ⟨t, ht, heval⟩ := term_of_fits h
    obtain ⟨u, hu, hcast⟩ := term_congr (hkind hshift) ht
    refine ⟨t, bind_iff.2 ⟨u, hu, ?_⟩, heval⟩
    rw [dif_pos (hkind hshift), hcast]
    rfl

/-! ## Results -/

theorem derive_under (kind : Kind) (t : Term kind.bits) (s : Store) : ∃ r s',
    derive kind t s = .ok r s' ∧ ∀ v, s'.Satisfied v →
      r.under v kind = .ofBits (t.eval v).toNat kind := by
  obtain ⟨c, hc, hderive⟩ | ⟨-, hderive⟩ := derive_cases kind t s
  · refine ⟨_, _, hderive, fun v _ => ?_⟩
    rw [hc v]
    rfl
  · refine ⟨_, _, hderive, fun v hv => ?_⟩
    have hdefinitions := definitions_extend_derived s kind.numBytes t
    have hsatisfied : Definition.satisfied v ⟨s.size, kind.numBytes, t⟩ :=
      hv _ (hdefinitions ▸ List.mem_append_right _ (List.mem_singleton_self _))
    exact congrArg (fun n : Nat => Scalar.ofBits n kind) (valueOf_cellsFrom hsatisfied)

/-- What is recorded stays. -/
theorem mem_definitions_of_derive {s' : Store} {r : Scalar} (h : derive kind t s = .ok r s')
    {d : Definition} (hd : d ∈ s.definitions) : d ∈ s'.definitions := by
  obtain ⟨c, -, hderive⟩ | ⟨-, hderive⟩ := derive_cases kind t s
  · cases hderive.symm.trans h
    exact hd
  · cases hderive.symm.trans h
    have hdefinitions := definitions_extend_derived s kind.numBytes t
    exact hdefinitions ▸ List.mem_append_left _ hd

theorem deriveTruth_under (c : Condition) (s : Store) : ∃ r s',
    deriveTruth c s = .ok r s' ∧ (∀ d ∈ s.definitions, d ∈ s'.definitions) ∧
      ∀ v, s'.Satisfied v → r.under v .bool = .ofBool (c.holds v) := by
  obtain ⟨r, s', hderive, hr⟩ := derive_under .bool (c.zeroExtend Kind.bool.bits) s
  refine ⟨r, s', hderive, fun d hd => mem_definitions_of_derive hderive hd, fun v hv => ?_⟩
  rw [hr v hv, ofBits_ofBool]

/-- An operation on terms is the one that the operator combines them to. -/
theorem binary_of_terms {a b : Term kind.bits} (ha : s.term lhs kind = .ok a)
    (hb : s.secondOperand op rhs kind (rhsKind.getD kind) = .ok b) :
    binary op lhs rhs kind rhsKind s = (match combine kind.isSigned op a b with
      | .word t => derive kind t
      | .truth c => deriveTruth c : Run Store Scalar) s := by
  have hget : (get : Run Store Store) s = .ok s s := rfl
  unfold binary
  rw [bind_of_ok hget, ha, hb]
  rfl

theorem binary_under {a b : Term kind.bits} (ha : s.term lhs kind = .ok a)
    (hb : s.secondOperand op rhs kind (rhsKind.getD kind) = .ok b) : ∃ r s',
    binary op lhs rhs kind rhsKind s = .ok r s' ∧ ∀ v, s'.Satisfied v →
      r.under v (op.resultKind kind) = (combine kind.isSigned op a b).value v kind := by
  rw [binary_of_terms ha hb]
  cases hc : combine kind.isSigned op a b with
  | word t =>
    have hkind : op.resultKind kind = kind := by
      cases op <;> first | rfl | cases hc
    rw [hkind]
    exact derive_under kind t s
  | truth c =>
    have hkind : op.resultKind kind = .bool := by
      cases op <;> first | rfl | cases hc
    rw [hkind]
    obtain ⟨r, s', hderive, -, hr⟩ := deriveTruth_under c s
    exact ⟨r, s', hderive, hr⟩

end Store

/-! ## Operators -/

namespace Operator

variable {lhs rhs : Scalar} {a : Scalar} {rhsKind : Option Kind}

/-- What bit-vector logic gives for a division by zero, or its remainder. -/
def byZero (op : BinOp) (kind : Kind) (a : BitVec kind.bits) : BitVec kind.bits :=
  if op = .rem then a else if kind.number a < 0 then 1 else BitVec.allOnes kind.bits

/-- A division or remainder whose divisor has a pattern that is zero at the width of the kind. -/
def DividesByZero (op : BinOp) (kind : Kind) (rhs : Scalar) : Prop :=
  (op = .div ∨ op = .rem) ∧ ∃ q, rhs = .bits q ∧ q.setWidth kind.bits = 0#_

variable {s : Store} {v : Valuation} {kind : Kind} {op : BinOp}

theorem dividesByZero_iff {q : BitVec 128} {b : BitVec kind.bits} (h : Spells op q b) :
    DividesByZero op kind (.bits q) ↔ (op = .div ∨ op = .rem) ∧ b = 0#_ := by
  constructor
  · rintro ⟨hop, _, ⟨⟩, hzero⟩
    refine ⟨hop, ?_⟩
    rcases hop with rfl | rfl <;> exact h.trans hzero
  · rintro ⟨hop, hzero⟩
    refine ⟨hop, q, rfl, ?_⟩
    rcases hop with rfl | rfl <;> exact h.symm.trans hzero

theorem value_byZero {a b : Term kind.bits} (hop : op = .div ∨ op = .rem) (hb : b.eval v = 0#_) :
    (Store.combine kind.isSigned op a b).value v kind
      = .ofBits (byZero op kind (a.eval v)).toNat kind := by
  have hword {x y : BitVec kind.bits} (h : x = y) :
      Scalar.ofBits x.toNat kind = .ofBits y.toNat kind := by rw [h]
  rcases hop with rfl | rfl
  · have hdiv : (if kind.isSigned then WordOp.sdiv else .udiv).eval (a.eval v) 0#_
        = byZero .div kind (a.eval v) := by
      unfold byZero Kind.number
      cases kind.isSigned with
      | true => simp [WordOp.eval, BitVec.smtSDiv_zero, BitVec.slt_iff_toInt_lt]
      | false => simp [WordOp.eval, BitVec.smtUDiv_zero]
    rw [← hb] at hdiv
    exact hword hdiv
  · have hrem : (if kind.isSigned then WordOp.srem else .urem).eval (a.eval v) 0#_
        = byZero .rem kind (a.eval v) := by
      unfold byZero
      cases kind.isSigned <;> simp [WordOp.eval]
    rw [← hb] at hrem
    exact hword hrem

/-- An operation on a symbolic operand goes to the store, unless a known divisor is zero. -/
theorem binary_eq (hfloat : kind.isFloat = false) (hl : lhs.Fits s kind) (hr : rhs.Fits s other)
    (hsymbolic : (lhs.isSymbolic || rhs.isSymbolic)) :
    (DividesByZero op kind rhs →
      binary op lhs rhs kind rhsKind s = .error (.error .divisionByZero) s) ∧
    (¬ DividesByZero op kind rhs →
      binary op lhs rhs kind rhsKind s = Store.binary op lhs rhs kind rhsKind s) := by
  have hundef : (lhs.isUndef || rhs.isUndef) = false := by rw [hl.isUndef, hr.isUndef]; rfl
  have hptr : (lhs.isPtr || rhs.isPtr) = false := by rw [hl.isPtr, hr.isPtr]; rfl
  unfold binary
  simp only [hundef, hptr, hsymbolic, hfloat, Bool.false_eq_true, if_false, if_true]
  cases hr with
  | bits q =>
    constructor
    · rintro ⟨hop, _, ⟨⟩, hzero⟩
      have hpos : (op = .div ∨ op = .rem) ∧ q.setWidth kind.bits = 0 := ⟨hop, hzero⟩
      simp only [if_pos hpos]
      rfl
    · intro hdivides
      have hneg : ¬ ((op = .div ∨ op = .rem) ∧ q.setWidth kind.bits = 0) :=
        fun h => hdivides ⟨h.1, q, rfl, h.2⟩
      simp only [if_neg hneg]
  | cells hlength hscope =>
    constructor
    · rintro ⟨-, _, ⟨⟩, -⟩
    · exact fun _ => rfl

theorem binary_agrees (hfloat : kind.isFloat = false) (hl : lhs.Fits s kind)
    (hr : rhs.Fits s (op.secondKind kind rhsKind))
    (hkind : op.isShift = false → (rhsKind.getD kind).bits = kind.bits)
    (hsymbolic : (lhs.isSymbolic || rhs.isSymbolic)) (hknown : ¬ DividesByZero op kind rhs) :
    ∃ r s', binary op lhs rhs kind rhsKind s = .ok r s' ∧
      ∀ v, s'.Satisfied v →
        let a := lhs.under v kind
        let b := rhs.under v (op.secondKind kind rhsKind)
        (¬ DividesByZero op kind b → ∀ s0,
          binary op a b kind rhsKind s0 = .ok (r.under v (op.resultKind kind)) s0) ∧
        (DividesByZero op kind b →
          (∀ s0, binary op a b kind rhsKind s0 = .error (.error .divisionByZero) s0) ∧
          ∃ p, a = .bits p ∧
            r.under v kind = .ofBits (byZero op kind (p.setWidth kind.bits)).toNat kind) := by
  obtain ⟨a, ha, hleft⟩ := Store.term_of_fits hl
  obtain ⟨b, hb, hright⟩ := Store.secondOperand_of_fits hr hkind
  obtain ⟨r, s', hbinary, hr'⟩ := Store.binary_under ha hb
  refine ⟨r, s', ((binary_eq hfloat hl hr hsymbolic).2 hknown).trans hbinary, fun v hv => ?_⟩
  obtain ⟨p, hp, heval⟩ := hleft v
  obtain ⟨q, hq, hspells⟩ := hright v
  simp only [hp, hq]
  have hconcrete (s0 : Store) : binary op (.bits p) (.bits q) kind rhsKind s0
      = (liftM (onPatterns op p q kind rhsKind) : Run Store Scalar) s0 := by rw [binary_bits]
  rw [onPatterns_combine hfloat heval hspells] at hconcrete
  rw [dividesByZero_iff hspells]
  constructor
  · intro hzero s0
    rw [hconcrete, if_neg hzero, hr' v hv]
    rfl
  · intro hzero
    refine ⟨fun s0 => ?_, p, rfl, ?_⟩
    · rw [hconcrete, if_pos hzero]
      rfl
    · have hresult : op.resultKind kind = kind := by
        rcases hzero.1 with rfl | rfl <;> rfl
      rw [← heval, ← value_byZero hzero.1 hzero.2, ← hr' v hv, hresult]

theorem unary_eq (hfloat : kind.isFloat = false) (ha : a.Fits s kind) (op : UnOp) :
    unary op a kind = match op with
      | .not => binary .bitXor a (.ofBits (if kind = .bool then 1 else -1) kind) kind none
      | .neg => binary .sub (.ofNat 0) a kind none := by
  unfold unary
  cases ha <;> cases op <;> simp only [hfloat, Bool.false_eq_true, if_false]

/-- The operators that the unary ones are made of do not divide. -/
theorem binary_agrees_of_total (hop : op = .bitXor ∨ op = .sub) (hfloat : kind.isFloat = false)
    (hl : lhs.Fits s kind) (hr : rhs.Fits s kind)
    (hsymbolic : (lhs.isSymbolic || rhs.isSymbolic)) :
    ∃ r s', binary op lhs rhs kind none s = .ok r s' ∧
      ∀ v, s'.Satisfied v → ∀ s0,
        binary op (lhs.under v kind) (rhs.under v kind) kind none s0 = .ok (r.under v kind) s0 := by
  have htotal (rhs : Scalar) : ¬ DividesByZero op kind rhs := by
    rintro ⟨hdivides, -⟩
    rcases hop with rfl | rfl <;> rcases hdivides with h | h <;> cases h
  have hsecond : op.secondKind kind none = kind := by rcases hop with rfl | rfl <;> rfl
  have hresult : op.resultKind kind = kind := by rcases hop with rfl | rfl <;> rfl
  have hr' : rhs.Fits s (op.secondKind kind none) := by rwa [hsecond]
  obtain ⟨r, s', hbinary, hagrees⟩ :=
    binary_agrees hfloat hl hr' (fun _ => rfl) hsymbolic (htotal rhs)
  refine ⟨r, s', hbinary, fun v hv s0 => ?_⟩
  have hvalue := (hagrees v hv).1 (htotal _) s0
  rwa [hsecond, hresult] at hvalue

theorem unary_agrees (hfloat : kind.isFloat = false) (ha : a.Fits s kind)
    (hsymbolic : a.isSymbolic) (op : UnOp) :
    ∃ r s', unary op a kind s = .ok r s' ∧ ∀ v, s'.Satisfied v →
      ∀ s0, unary op (a.under v kind) kind s0 = .ok (r.under v kind) s0 := by
  have hunary (v : Valuation) := unary_eq hfloat (ha.under v s) op
  rw [unary_eq hfloat ha op]
  simp only [hunary]
  cases op with
  | not => exact binary_agrees_of_total (.inl rfl) hfloat ha (.bits _) (by simp [hsymbolic])
  | neg => exact binary_agrees_of_total (.inr rfl) hfloat (.bits _) ha (by simp [hsymbolic])

/-- An operator gives a value on symbolic operands of a kind, unless a known divisor is zero. Under
all values that agree with the definitions this is the operator's value on the values of the operands;
where that one divides by zero, it is what bit-vector logic says. -/
theorem operations_agree (hfloat : kind.isFloat = false) (s : Store) :
    (∀ (op : BinOp) (lhs rhs : Scalar) (rhsKind : Option Kind),
      lhs.Fits s kind → rhs.Fits s (op.secondKind kind rhsKind) →
      (op.isShift = false → (rhsKind.getD kind).bits = kind.bits) →
      (lhs.isSymbolic || rhs.isSymbolic) = true →
      (DividesByZero op kind rhs →
        binary op lhs rhs kind rhsKind s = .error (.error .divisionByZero) s) ∧
      (¬ DividesByZero op kind rhs → ∃ r s', binary op lhs rhs kind rhsKind s = .ok r s' ∧
        ∀ v, (∀ d ∈ s'.definitions, d.satisfied v) →
          let a := lhs.under v kind
          let b := rhs.under v (op.secondKind kind rhsKind)
          (¬ DividesByZero op kind b → ∀ s0,
            binary op a b kind rhsKind s0 = .ok (r.under v (op.resultKind kind)) s0) ∧
          (DividesByZero op kind b →
            (∀ s0, binary op a b kind rhsKind s0 = .error (.error .divisionByZero) s0) ∧
            ∃ p, a = .bits p ∧
              r.under v kind = .ofBits (byZero op kind (p.setWidth kind.bits)).toNat kind))) ∧
    (∀ (op : UnOp) (a : Scalar), a.Fits s kind → a.isSymbolic = true →
      ∃ r s', unary op a kind s = .ok r s' ∧ ∀ v, (∀ d ∈ s'.definitions, d.satisfied v) →
        ∀ s0, unary op (a.under v kind) kind s0 = .ok (r.under v kind) s0) := by
  refine ⟨fun op lhs rhs rhsKind hl hr hkind hsymbolic => ?_, fun op a ha hsymbolic => ?_⟩
  · exact ⟨(binary_eq hfloat hl hr hsymbolic).1, binary_agrees hfloat hl hr hkind hsymbolic⟩
  · exact unary_agrees hfloat ha hsymbolic op

/-- Two symbolic bytes are divided as signed numbers; the second one can be zero. -/
theorem operations_agree_sample :
    let s : Store := { segments := [.input 2] }
    let kind : Kind := .int .w8 true
    (Scalar.cells [.symbol 0]).Fits s kind ∧ (Scalar.cells [.symbol 1]).Fits s kind ∧
    ∃ r s', binary .div (.cells [.symbol 0]) (.cells [.symbol 1]) kind none s = .ok r s' ∧
      ∀ v, (∀ d ∈ s'.definitions, d.satisfied v) →
        let a := (Scalar.cells [.symbol 0]).under v kind
        let b := (Scalar.cells [.symbol 1]).under v kind
        (¬ DividesByZero .div kind b → ∀ s0,
          binary .div a b kind none s0 = .ok (r.under v kind) s0) ∧
        (DividesByZero .div kind b →
          (∀ s0, binary .div a b kind none s0 = .error (.error .divisionByZero) s0) ∧
          ∃ p, a = .bits p ∧
            r.under v kind = .ofBits (byZero .div kind (p.setWidth kind.bits)).toNat kind) := by
  have hfits (i : Nat) (hi : i < 2) :
      (Scalar.cells [.symbol i]).Fits { segments := [.input 2] } (.int .w8 true) :=
    .cells rfl fun j hj => by
      rw [show j = i by simpa [Cell.symbols, Cell.symbol?] using hj]
      exact hi
  have hl := hfits 0 (by decide)
  have hr := hfits 1 (by decide)
  refine ⟨hl, hr, ?_⟩
  refine ((operations_agree rfl _).1 .div _ _ none hl hr (fun _ => rfl) rfl).2 ?_
  rintro ⟨-, _, ⟨⟩, -⟩

end Operator
end SymExec

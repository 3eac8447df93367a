import SymExec.Proofs.Mirror

/-!
# Operators and casts on known and on symbolic bytes

Where an operand is symbolic, an operation records a term; on known operands it is carried out. The
result on known bytes is the value of the term, with three exceptions: a known divisor must not be
zero, a known number that becomes a character must be one of a byte, and a byte that is read as a
truth value stays the number that it is when it is cast, where a symbolic one becomes zero or one.
-/
namespace SymExec

open Run List Scalar Store Cell Nat

variable {n : Nat}

namespace Store

variable {kind : Kind} {a a' : Scalar} {t : Term kind.bits} {act' : Run Store Scalar}
  {start : Nat} {op : BinOp} {rhsKind : Option Kind}

/-- Stores seen under values of the symbolic bytes: known bytes need no store, so it stays as it
was at the start. -/
def view (v : Valuation) (s0 : Store) : View Store := ⟨v, id, fun _ => s0⟩

variable {v : Valuation} {s0 s : Store} {E : EvalError → Prop} {D : Prop}

/-! ## Derived values -/

theorem ground_cellsFrom {value : Nat}
    (h : ∀ j < n, v (start + j) = BitVec.ofNat 8 (value / 256 ^ j)) :
    (cellsFrom start n).map (ground v) = ofNat value n := by
  induction n generalizing start value with
  | zero => rfl
  | succ n ih =>
    have hrest : (cellsFrom (start + 1) n).map (ground v) = ofNat (value / 256) n := by
      refine ih fun j hj => ?_
      have := h (j + 1) (by omega)
      rwa [Nat.pow_succ', ← Nat.div_div_eq_div_mul, ← Nat.add_assoc, Nat.add_right_comm] at this
    have hshift : cellsFrom start (n + 1) = .symbol start :: cellsFrom (start + 1) n := by
      simp [cellsFrom, range_succ_eq_map, Function.comp_def, add_comm, add_left_comm]
    have hfirst := h 0 (by omega)
    rw [hshift, map_cons, hrest, Cell.ofNat, Cell.ground, Cell.eval_symbol]
    simpa using hfirst

theorem valueOf_cellsFrom {t : Term (8 * n)} (h : Definition.satisfied v ⟨start, n, t⟩) :
    valueOf v (cellsFrom start n) = (t.eval v).toNat := by
  have hbytes : (cellsFrom start n).map (ground v) = ofNat (t.eval v).toNat n := by
    refine ground_cellsFrom fun j hj => ?_
    rw [h j hj, BitVec.extractLsb', Nat.shiftRight_eq_div_pow, Nat.pow_mul]
  have hlt : (t.eval v).toNat < 256 ^ n := by
    have := (t.eval v).isLt
    rwa [Nat.pow_mul] at this
  rw [← valueOf_ground v, hbytes, valueOf_ofNat, Nat.mod_eq_of_lt hlt]

theorem symbols_cellsFrom (h : 0 < n) : symbols (cellsFrom start n) ≠ [] := by
  obtain ⟨n, rfl⟩ := exists_eq_succ_of_ne_zero (ne_of_gt h)
  simp [cellsFrom, symbols, range_succ_eq_map, symbol?]

/-- What is done on known bytes, in the place of a term that has the value `a`. -/
def Performs (E : EvalError → Prop) (D : Prop) (s0 : Store) (act' : Run Store Scalar)
    (a : Scalar) : Prop :=
  act' s0 = .ok a s0 ∨ (∃ e c, act' s0 = .error (.error e) c ∧ E e) ∨ D

theorem mirrors_derive (hscope : ∀ i ∈ t.symbols, i < s.size)
    (h : Performs E D s0 act' (.ofBits (t.eval v).toNat kind)) :
    Mirrors (view v s0) E D (Scalar.Agrees v) (derive kind t) act' s := by
  intro a s' hok
  have hderives := derives_derive hscope
  rw [final_of_ok hok] at hderives
  refine ⟨develops_derives hderives, ?_⟩
  obtain ⟨c, hc, hderive⟩ | ⟨-, hderive⟩ := derive_cases kind t s
  · obtain ⟨rfl, rfl⟩ := EStateM.Result.ok.inj (hderive.symm.trans hok)
    refine ⟨⟨_, .ofBits _ kind⟩, fun _ => ?_⟩
    rw [hc v] at h
    exact h.imp_left fun h => ⟨_, .ofBits _ kind, h⟩
  · obtain ⟨rfl, rfl⟩ := EStateM.Result.ok.inj (hderive.symm.trans hok)
    have hlength : (cellsFrom s.size kind.numBytes).length = kind.numBytes := by simp [cellsFrom]
    have hagrees := Scalar.Agrees.cells_ofBits (v := v) hlength (symbols_cellsFrom kind.numBytes_pos)
    refine ⟨⟨_, hagrees⟩, fun hmodels => ?_⟩
    have hdefinitions := definitions_extend_derived s kind.numBytes t
    have hsatisfied : Definition.satisfied v ⟨s.size, kind.numBytes, t⟩ :=
      hmodels.1 _ (hdefinitions ▸ mem_append_right _ (mem_singleton_self _))
    rw [valueOf_cellsFrom hsatisfied] at hagrees
    exact h.imp_left fun h => ⟨_, hagrees, h⟩

/-! ## Operands -/

theorem term_agrees (ha : a.Agrees v a') (ht : s.term a kind = .ok t) :
    ∃ p, a' = .bits p ∧ t.eval v = p.setWidth kind.bits := by
  rcases term_eq_ok.1 ht with ⟨p, rfl, rfl⟩ | ⟨list, rfl, hlength, -, rfl⟩
  · cases ha
    exact ⟨p, rfl, rfl⟩
  · cases ha with
    | cells _ hlow =>
      refine ⟨_, rfl, BitVec.eq_of_toNat_eq ?_⟩
      rw [Term.eval, BitVec.toNat_ofNat, BitVec.toNat_setWidth, ← hlow, hlength,
        pow_numBytes, mod_mod]

/-- The low bits of a word that count as a shift amount. -/
theorem toNat_masked (kind : Kind) (n : Nat) :
    (BitVec.ofNat kind.bits n &&& BitVec.ofNat kind.bits (kind.bits - 1)).toNat
      = n % kind.bits := by
  obtain ⟨k, hk, hbits⟩ := Operator.bits_eq_pow kind
  have hmask : (kind.bits - 1) % 2 ^ kind.bits = 2 ^ k - 1 := by
    rw [hbits, mod_eq_of_lt]
    exact Nat.lt_of_le_of_lt (Nat.sub_le _ _) Nat.lt_two_pow_self
  have hword : 256 ∣ 2 ^ kind.bits := pow_dvd_pow 2 kind.le_bits
  rw [BitVec.toNat_and, BitVec.toNat_ofNat, BitVec.toNat_ofNat, hmask,
    and_two_pow_sub_one_eq_mod, ← hbits, Operator.mod_bits_of_dvd kind hword]

theorem toNat_amount (kind : Kind) (n : Nat) :
    (BitVec.ofNat kind.bits (n % kind.bits)).toNat = n % kind.bits := by
  have hpos : 0 < kind.bits := lt_of_lt_of_le (by decide) kind.le_bits
  rw [BitVec.toNat_ofNat, mod_eq_of_lt]
  exact Nat.lt_trans (Nat.mod_lt n hpos) Nat.lt_two_pow_self

theorem shiftAmount_agrees (ha : a.Agrees v a') (ht : s.shiftAmount a kind.bits = .ok t) :
    ∃ p, a' = .bits p ∧ (t.eval v).toNat = p.toNat % kind.bits := by
  rcases shiftAmount_eq_ok.1 ht with ⟨p, rfl, rfl⟩ | ⟨list, rfl, hlength, -, rfl⟩
  · cases ha
    exact ⟨p, rfl, toNat_amount kind _⟩
  · cases ha with
    | @cells _ p _ hlow =>
      have hpos : list.length ≠ 0 := by
        intro hzero
        rw [hzero] at hlength
        cases hlength
      have hbyte : 256 ∣ 256 ^ list.length := dvd_pow_self 256 hpos
      refine ⟨p, rfl, (toNat_masked kind _).trans ?_⟩
      rw [← hlow, Operator.mod_bits_of_dvd kind hbyte]

theorem secondOperand_agrees (ha : a.Agrees v a') (hkind : op.isShift = false → rhsKind = none)
    (ht : s.secondOperand op a kind (rhsKind.getD kind) = .ok t) :
    ∃ p, a' = .bits p ∧
      if op.isShift then (t.eval v).toNat = p.toNat % kind.bits
      else t.eval v = p.setWidth kind.bits := by
  unfold secondOperand at ht
  cases hshift : op.isShift with
  | true =>
    rw [hshift, if_pos rfl] at ht
    exact shiftAmount_agrees ha ht
  | false =>
    rw [hshift, if_neg (by simp)] at ht
    obtain ⟨b, hb, ht⟩ := bind_iff.1 ht
    obtain rfl := hkind hshift
    rw [dif_pos (show (none.getD kind).bits = kind.bits from rfl)] at ht
    cases ht
    exact term_agrees ha hb

/-! ## Operations -/

theorem ofBits_ofBool (c : Condition) :
    ofBits ((c.zeroExtend Kind.bool.bits).eval v).toNat .bool = .ofBool (c.holds v) := by
  rw [Term.eval, Term.eval_of_holds]
  cases c.holds v <;> rfl

theorem mirrors_deriveTruth {c : Condition} (hscope : ∀ i ∈ c.symbols, i < s.size)
    (h : Performs E D s0 act' (.ofBool (c.holds v))) :
    Mirrors (view v s0) E D (Scalar.Agrees v) (deriveTruth c) act' s := by
  unfold deriveTruth
  refine mirrors_derive hscope ?_
  rwa [ofBits_ofBool]

theorem mirrors_binary {lhs rhs : Scalar}
    (h : ∀ a b, s.term lhs kind = .ok a → s.secondOperand op rhs kind (rhsKind.getD kind) = .ok b →
      Performs E D s0 act' ((combine kind.isSigned op a b).value v kind)) :
    Mirrors (view v s0) E D (Scalar.Agrees v) (binary op lhs rhs kind rhsKind) act' s := by
  refine .getBind (.liftBind fun a ha => .liftBind fun b hb => ?_)
  have hperforms := h a b ha hb
  have hscope := symbols_combine_lt kind.isSigned op (symbols_term_lt ha) (symbols_secondOperand_lt hb)
  cases hc : combine kind.isSigned op a b with
  | word t =>
    rw [hc] at hscope hperforms
    exact mirrors_derive hscope hperforms
  | truth c =>
    rw [hc] at hscope hperforms
    exact mirrors_deriveTruth hscope hperforms

end Store

/-! ## Operators -/

namespace Operator

variable {v : Valuation} {s0 s : Store} {E : EvalError → Prop} {D : Prop}
variable {kind : Kind} {op : BinOp} {a lhs lhs' r rhs rhs' : Scalar} {p q : BitVec 128}
  {rhsKind : Option Kind} {exact : Int → Int → Int}
  {s' : Store} {wordOp : WordOp} {b : Term kind.bits}

def onPatterns (op : BinOp) (p q : BitVec 128) (kind : Kind) (rhsKind : Option Kind) :
    Except EvalError Scalar := do
  if kind.isFloat then
    onFloats op (← (bits p).toDouble kind) (← (bits q).toDouble kind) kind
  else if op.isShift then
    onInts op (numberOf kind p) (q.setWidth (rhsKind.getD kind).bits).toNat kind
  else onInts op (numberOf kind p) (numberOf kind q) kind

theorem binary_bits (op : BinOp) (p q : BitVec 128) (kind : Kind) (rhsKind : Option Kind) :
    binary op (.bits p) (.bits q) kind rhsKind = liftM (onPatterns op p q kind rhsKind) := by
  unfold binary onPatterns
  cases kind.isFloat with
  | true => rfl
  | false =>
    cases op.isShift with
    | true => rfl
    | false => rfl

theorem agrees_onFloats {x y : Nat} (h : onFloats op x y kind = .ok a) : a.Agrees v a := by
  unfold onFloats at h
  split at h
  · cases h
    exact .ofBool _
  · split at h
    all_goals cases h
    all_goals exact .ofDouble _ kind

theorem agrees_onInts {a b : Int} (h : onInts op a b kind = .ok r) : r.Agrees v r := by
  simp only [onInts] at h
  split at h
  · cases h
    exact .ofBool _
  · split at h
    case h_4 | h_5 =>
      split at h
      · cases h
      · cases h
        exact .ofBits _ kind
    all_goals cases h
    all_goals exact .ofBits _ kind

/-- A result on patterns is the same under all values of the symbolic bytes. -/
theorem agrees_onPatterns (h : onPatterns op p q kind rhsKind = .ok a) : a.Agrees v a := by
  unfold onPatterns at h
  split at h
  · exact agrees_onFloats h
  · split at h
    · exact agrees_onInts h
    · exact agrees_onInts h

theorem onPointers_agrees (hl : lhs.Agrees v lhs') (hr : rhs.Agrees v rhs')
    (h : onPointers op lhs rhs = .ok r) : onPointers op lhs' rhs' = .ok r ∧ r.Agrees v r := by
  unfold onPointers at h ⊢
  split at h
  · cases h
  · rename_i hop
    rw [if_neg hop]
    split at h
    · cases hl
      cases hr
      cases h
      exact ⟨rfl, .ofBool _⟩
    · rename_i p q _
      cases hl
      cases hr
      split at h
      · rename_i hne
        cases h
        obtain ⟨x, hx⟩ := p.exists_ground v
        obtain ⟨y, hy⟩ := q.exists_ground v
        have hdiffer : (p.alloc == q.alloc) = false := beq_eq_false_iff_ne.2 hne
        rw [hx, hy]
        refine ⟨?_, .ofBool _⟩
        simp only [hdiffer, Bool.false_and, bne]
        cases op == BinOp.eq <;> rfl
      · cases h
    · cases h

theorem numberOf_eq_number (kind : Kind) (p : BitVec 128) :
    numberOf kind p = kind.number (p.setWidth kind.bits) := rfl

theorem binary_of_symbolic (hundef : (lhs.isUndef || rhs.isUndef) = false)
    (hptr : (lhs.isPtr || rhs.isPtr) = false)
    (hsymbolic : (lhs.isSymbolic || rhs.isSymbolic))
    (h : binary op lhs rhs kind rhsKind s = .ok r s') :
    kind.isFloat = false ∧ Store.binary op lhs rhs kind rhsKind s = .ok r s' := by
  unfold binary at h
  simp only [hundef, hptr, hsymbolic, Bool.false_eq_true, if_false, if_true] at h
  cases hfloat : kind.isFloat with
  | true =>
    rw [hfloat] at h
    cases h
  | false =>
    rw [hfloat] at h
    refine ⟨rfl, ?_⟩
    simp only [Bool.false_eq_true, if_false] at h
    split at h
    · split at h
      · cases h
      · exact h
    · exact h

/-- The second operand has the pattern of a term; a shift amount has it modulo the width. -/
def Spells (op : BinOp) {kind : Kind} (q : BitVec 128) (b : BitVec kind.bits) : Prop :=
  if op.isShift then b.toNat = q.toNat % kind.bits else b = q.setWidth kind.bits

/-- On the patterns of two terms an operator gives the value of its own term, unless it divides by
zero. -/
theorem onPatterns_combine (hfloat : kind.isFloat = false) {a : Term kind.bits}
    (ha : a.eval v = p.setWidth kind.bits) (hb : Spells op q (b.eval v)) :
    onPatterns op p q kind rhsKind = if (op = .div ∨ op = .rem) ∧ b.eval v = 0#_
      then .error .divisionByZero
      else .ok ((combine kind.isSigned op a b).value v kind) := by
  unfold onPatterns
  rw [hfloat, if_neg (by simp), numberOf_eq_number, ← ha]
  unfold Spells at hb
  cases hshift : op.isShift with
  | true =>
    rw [hshift, if_pos rfl] at hb
    have hmod : (b.eval v).toNat = (q.setWidth (rhsKind.getD kind).bits).toNat % kind.bits := by
      have hword : 256 ∣ 2 ^ (rhsKind.getD kind).bits := pow_dvd_pow 2 (Kind.le_bits _)
      rw [hb, BitVec.toNat_setWidth, mod_bits_of_dvd kind hword]
    have hop : ¬ (op = .div ∨ op = .rem) := by
      rintro (rfl | rfl) <;> cases hshift
    rw [if_pos rfl, onInts_shift hshift hmod, if_neg fun h => hop h.1]
  | false =>
    rw [hshift, if_neg (by simp)] at hb
    rw [if_neg (by simp), numberOf_eq_number, ← hb]
    by_cases hzero : (op = .div ∨ op = .rem) ∧ b.eval v = 0#_
    · rw [if_pos hzero, hzero.2, onInts_zero hzero.1]
    · rw [if_neg hzero, onInts_combine hshift fun hop hb => hzero ⟨hop, hb⟩]

theorem performs_binary (hl : lhs.Agrees v (.bits p)) (hr : rhs.Agrees v (.bits q))
    (hfloat : kind.isFloat = false) (hkind : op.isShift = false → rhsKind = none)
    (hE : op = .div ∨ op = .rem → E .divisionByZero) {a : Term kind.bits}
    (ha : s.term lhs kind = .ok a) (hb : s.secondOperand op rhs kind (rhsKind.getD kind) = .ok b) :
    Store.Performs E D s0 (binary op (.bits p) (.bits q) kind rhsKind)
      ((combine kind.isSigned op a b).value v kind) := by
  obtain ⟨_, ⟨⟩, heval⟩ := term_agrees hl ha
  obtain ⟨_, ⟨⟩, hamount⟩ := secondOperand_agrees hr hkind hb
  rw [binary_bits, onPatterns_combine hfloat heval hamount]
  by_cases hzero : (op = .div ∨ op = .rem) ∧ b.eval v = 0#_
  · rw [if_pos hzero]
    exact .inr (.inl ⟨_, _, rfl, hE hzero.1⟩)
  · rw [if_neg hzero]
    exact .inl rfl

theorem mirrors_binary (hl : lhs.Agrees v lhs') (hr : rhs.Agrees v rhs')
    (hkind : op.isShift = false → rhsKind = none) (hE : op = .div ∨ op = .rem → E .divisionByZero) :
    Mirrors (Store.view v s0) E D (Scalar.Agrees v) (binary op lhs rhs kind rhsKind)
      (binary op lhs' rhs' kind rhsKind) s := by
  have hsymbolic : ∀ p q, lhs' = .bits p → rhs' = .bits q →
      (lhs.isSymbolic || rhs.isSymbolic) = true →
      Mirrors (Store.view v s0) E D (Scalar.Agrees v) (binary op lhs rhs kind rhsKind)
        (binary op lhs' rhs' kind rhsKind) s := by
    rintro p q rfl rfl hsymbolic r s' hok
    have hundef : (lhs.isUndef || rhs.isUndef) = false := by cases hl <;> cases hr <;> rfl
    have hptr : (lhs.isPtr || rhs.isPtr) = false := by cases hl <;> cases hr <;> rfl
    obtain ⟨hfloat, hstore⟩ := binary_of_symbolic hundef hptr hsymbolic hok
    exact Store.mirrors_binary (fun a b ha hb => performs_binary hl hr hfloat hkind hE ha hb) r s'
      hstore
  have hpointers : (lhs.isUndef || rhs.isUndef) = false → (lhs.isPtr || rhs.isPtr) = true →
      Mirrors (Store.view v s0) E D (Scalar.Agrees v) (liftM (onPointers op lhs rhs))
        (liftM (onPointers op lhs' rhs') : Run Store Scalar) s := fun _ _ =>
    .lift_of_ok fun r hr' => ⟨r, (onPointers_agrees hl hr hr').2, (onPointers_agrees hl hr hr').1⟩
  cases hl with
  | undef => exact .pure .undef
  | ptr p =>
    cases hr with
    | undef => exact .pure .undef
    | ptr | bits | cells => exact hpointers rfl rfl
  | bits p =>
    cases hr with
    | undef => exact .pure .undef
    | ptr => exact hpointers rfl rfl
    | bits q =>
      rw [binary_bits]
      exact .lift_of_ok fun r hr => ⟨r, agrees_onPatterns hr, hr⟩
    | cells => exact hsymbolic p _ rfl rfl rfl
  | cells =>
    cases hr with
    | undef => exact .pure .undef
    | ptr => exact hpointers rfl rfl
    | bits | cells => exact hsymbolic _ _ rfl rfl rfl

/-- A comparison on known bytes gives a truth value, unless an operand is undefined. -/
theorem ofBool_of_binary_eq {w : BitVec 128} (hl : lhs.Agrees v lhs') (hr : rhs.Agrees v rhs')
    (h : binary .eq lhs' rhs' kind none s = .ok (.bits w) s') : ∃ b, bits w = .ofBool b := by
  have hpatterns : ∀ p q, onPatterns .eq p q kind none = .ok (.bits w) →
      ∃ b, bits w = .ofBool b := by
    intro p q hbits
    unfold onPatterns at hbits
    split at hbits
    · obtain ⟨x, -, hbits⟩ := bind_iff.1 hbits
      obtain ⟨y, -, hbits⟩ := bind_iff.1 hbits
      exact ⟨_, (Except.ok.inj hbits).symm⟩
    · exact ⟨_, (Except.ok.inj hbits).symm⟩
  have hpointers : ∀ a b, onPointers .eq a b = .ok (.bits w) → ∃ b, bits w = .ofBool b := by
    intro a b hbits
    unfold onPointers at hbits
    split at hbits
    · cases hbits
    · split at hbits
      · exact ⟨_, (Except.ok.inj hbits).symm⟩
      · split at hbits
        · exact ⟨_, (Except.ok.inj hbits).symm⟩
        · cases hbits
      · cases hbits
  have hlift : ∀ {e : Except EvalError Scalar}, (liftM e : Run Store Scalar) s = .ok (.bits w) s' →
      e = .ok (.bits w) := fun h => lift_eq_ok.1 (of_eq_ok.1 h).1
  cases hl with
  | undef => cases h
  | ptr =>
    cases hr with
    | undef => cases h
    | ptr | bits | cells => exact hpointers _ _ (hlift h)
  | bits | cells =>
    cases hr with
    | undef => cases h
    | ptr => exact hpointers _ _ (hlift h)
    | bits | cells =>
      rw [binary_bits] at h
      exact hpatterns _ _ (hlift h)

/-! ## Checked and unary operations -/

def PairAgrees (v : Valuation) (a a' : Scalar × Scalar) : Prop :=
  a.1.Agrees v a'.1 ∧ a.2.Agrees v a'.2

/-- The wrapped result of an exact operation on patterns and whether it overflowed. -/
def wrapped (exact : Int → Int → Int) (p q : BitVec 128) (kind : Kind) : Scalar × Scalar :=
  let value := exact (numberOf kind p) (numberOf kind q)
  (.ofBits value kind, .ofBool (kind.number (BitVec.ofInt kind.bits value) != value))

/-- The wrapped result of an exact operation is the value of the term at the width, and it overflowed if
the terms at twice the width differ. -/
theorem wrapped_eq {op : WordOp} (hop : Wraps op exact) {a : Term kind.bits}
    (ha : a.eval v = p.setWidth kind.bits) (hb : b.eval v = q.setWidth kind.bits) :
    wrapped exact p q kind = (.ofBits ((Term.binary op a b).eval v).toNat kind, .ofBool
      ((Term.differ (widen kind.isSigned (.binary op a b))
        (.binary op (widen kind.isSigned a) (widen kind.isSigned b))).holds v)) := by
  have hvalue : BitVec.ofInt kind.bits (exact (kind.number (a.eval v)) (kind.number (b.eval v)))
      = op.eval (a.eval v) (b.eval v) := by
    rw [hop.ofInt, Kind.ofInt_number, Kind.ofInt_number]
  rw [holds_overflow hop]
  simp only [wrapped, numberOf_eq_number, ← ha, ← hb, hvalue]
  exact congrArg (·, _) (ofBits_toNat hvalue)

theorem mirrors_wrapped {op : WordOp} (hop : Wraps op exact) {a : Term kind.bits}
    (ha : a.eval v = p.setWidth kind.bits) (hb : b.eval v = q.setWidth kind.bits)
    (hascope : ∀ i ∈ a.symbols, i < s.size) (hbscope : ∀ i ∈ b.symbols, i < s.size) :
    Mirrors (view v s0) E D (PairAgrees v)
      (do
        let result ← derive kind (.binary op a b)
        let overflowed ← deriveTruth (.differ (widen kind.isSigned (.binary op a b))
          (.binary op (widen kind.isSigned a) (widen kind.isSigned b)))
        return (result, overflowed))
      (pure (wrapped exact p q kind)) s := by
  have hscope : ∀ i ∈ (Term.binary op a b).symbols, i < s.size := by
    intro i hi
    rcases mem_append.1 hi with hi | hi
    · exact hascope i hi
    · exact hbscope i hi
  rw [wrapped_eq hop ha hb]
  change Mirrors _ _ _ _ _ (do
    let result ← pure (ofBits _ kind)
    let overflowed ← pure (ofBool _)
    return (result, overflowed)) _
  refine .bind (mirrors_derive hscope (.inl rfl)) fun r r' s1 hs1 hr => ?_
  have hle := (derives_derive hscope).size_le
  rw [final_of_ok hs1] at hle
  refine .bind (mirrors_deriveTruth (fun i hi => ?_) (.inl rfl))
    fun o o' s2 _ ho => .pure ⟨hr, ho⟩
  simp only [Term.symbols, Term.differ, Term.equal, symbols_widen, mem_append] at hi
  refine lt_of_lt_of_le (hscope i (mem_append.2 ?_)) hle
  exact hi.elim id id

def recorded (op : WordOp) (lhs rhs : Scalar) (kind : Kind) : Run Store (Scalar × Scalar) := do
  let s ← get
  let a ← s.term lhs kind
  let b ← s.term rhs kind
  let result ← derive kind (.binary op a b)
  let overflowed ← deriveTruth (.differ (widen kind.isSigned (.binary op a b))
    (.binary op (widen kind.isSigned a) (widen kind.isSigned b)))
  return (result, overflowed)

theorem mirrors_recorded {op : WordOp} (hop : Wraps op exact) (hl : lhs.Agrees v (.bits p))
    (hr : rhs.Agrees v (.bits q)) :
    Mirrors (view v s0) E D (PairAgrees v) (recorded op lhs rhs kind)
      (pure (wrapped exact p q kind)) s := by
  refine .getBind (.liftBind fun a ha => .liftBind fun b hb => ?_)
  obtain ⟨_, ⟨⟩, haeval⟩ := term_agrees hl ha
  obtain ⟨_, ⟨⟩, hbeval⟩ := term_agrees hr hb
  exact mirrors_wrapped hop haeval hbeval (symbols_term_lt ha) (symbols_term_lt hb)

theorem toNumber_ofBits (n : Int) (kind : Kind) :
    (ofBits n kind).toNumber kind = .ok (kind.number (BitVec.ofInt kind.bits n)) := by
  obtain ⟨p, hp, hlow⟩ := ofBits_eq_bits n kind
  rw [hp, toNumber, ← hlow]
  rfl

/-- Operators with a check for overflow: what they do as terms and as numbers. -/
structure Overflows (op : BinOp) (wordOp : WordOp) (exact : Int → Int → Int) : Prop where
  wraps : Wraps wordOp exact
  eq (lhs rhs : Scalar) (kind : Kind) (rhsKind : Option Kind)
    (hundef : (lhs.isUndef || rhs.isUndef) = false) (hptr : (lhs.isPtr || rhs.isPtr) = false) :
    overflowing op lhs rhs kind rhsKind =
      if lhs.isSymbolic || rhs.isSymbolic then recorded wordOp lhs rhs kind
      else do
        let value := exact (← lhs.toNumber kind) (← rhs.toNumber kind)
        let result := ofBits value kind
        return (result, .ofBool ((← result.toNumber kind) != value))

theorem overflows_add : Overflows .add .add fun a b => a + b where
  wraps := wraps_add
  eq lhs rhs kind rhsKind hundef hptr := by
    unfold overflowing
    simp only [hundef, hptr]
    rfl

theorem overflows_sub : Overflows .sub .sub fun a b => a - b where
  wraps := wraps_sub
  eq lhs rhs kind rhsKind hundef hptr := by
    unfold overflowing
    simp only [hundef, hptr]
    rfl

theorem overflows_mul : Overflows .mul .mul fun a b => a * b where
  wraps := wraps_mul
  eq lhs rhs kind rhsKind hundef hptr := by
    unfold overflowing
    simp only [hundef, hptr]
    rfl

theorem Overflows.bits (h : Overflows op wordOp exact) (p q : BitVec 128) (kind : Kind)
    (rhsKind : Option Kind) :
    overflowing op (.bits p) (.bits q) kind rhsKind = pure (wrapped exact p q kind) := by
  have hnumber : ∀ p, (Scalar.bits p).toNumber kind = .ok (Scalar.numberOf kind p) := fun _ => rfl
  rw [h.eq _ _ _ _ rfl rfl, if_neg (by simp [isSymbolic])]
  simp only [hnumber, toNumber_ofBits]
  rfl

theorem Overflows.mirrors (h : Overflows op wordOp exact) (hl : lhs.Agrees v (.bits p))
    (hr : rhs.Agrees v (.bits q)) :
    Mirrors (view v s0) E D (PairAgrees v) (overflowing op lhs rhs kind rhsKind)
      (overflowing op (.bits p) (.bits q) kind rhsKind) s := by
  have hundef : (lhs.isUndef || rhs.isUndef) = false := by cases hl <;> cases hr <;> rfl
  have hptr : (lhs.isPtr || rhs.isPtr) = false := by cases hl <;> cases hr <;> rfl
  cases hsymbolic : lhs.isSymbolic || rhs.isSymbolic with
  | true =>
    rw [h.bits, h.eq _ _ _ _ hundef hptr, hsymbolic, if_pos rfl]
    exact mirrors_recorded h.wraps hl hr
  | false =>
    cases hl with
    | cells => cases hsymbolic
    | bits =>
      cases hr with
      | cells => cases hsymbolic
      | bits =>
        rw [h.bits]
        exact .pure ⟨.ofBits _ kind, .ofBool _⟩

theorem overflowing_of_isShift (hshift : op.isShift)
    (hundef : (lhs.isUndef || rhs.isUndef) = false) (hptr : (lhs.isPtr || rhs.isPtr) = false) :
    overflowing op lhs rhs kind rhsKind = (do
      let result ← binary op lhs rhs kind rhsKind
      if rhs.isSymbolic then Run.fail .symbolicShiftCheck
      let amount ← rhs.toPattern
      return (result,
        .ofBool (kind.bits ≤ (amount.setWidth (rhsKind.getD kind).bits).toNat))) := by
  unfold overflowing
  simp only [hundef, hptr, hshift]
  rfl

theorem mirrors_overflowing (hl : lhs.Agrees v lhs') (hr : rhs.Agrees v rhs')
    (hkind : op.isShift = false → rhsKind = none) :
    Mirrors (view v s0) E D (PairAgrees v) (overflowing op lhs rhs kind rhsKind)
      (overflowing op lhs' rhs' kind rhsKind) s := by
  have hwords : ∀ p q, lhs' = .bits p → rhs' = .bits q →
      Mirrors (view v s0) E D (PairAgrees v) (overflowing op lhs rhs kind rhsKind)
        (overflowing op lhs' rhs' kind rhsKind) s := by
    rintro p q rfl rfl
    have hundef : (lhs.isUndef || rhs.isUndef) = false := by cases hl <;> cases hr <;> rfl
    have hptr : (lhs.isPtr || rhs.isPtr) = false := by cases hl <;> cases hr <;> rfl
    cases hshift : op.isShift with
    | true =>
      rw [overflowing_of_isShift hshift hundef hptr, overflowing_of_isShift hshift rfl rfl]
      refine .bind (mirrors_binary hl hr hkind ?_) fun r r' s1 _ hresult => ?_
      · rintro (rfl | rfl) <;> cases hshift
      · cases hr with
        | bits => exact .pure ⟨hresult, .ofBool _⟩
        | cells => exact .of_error rfl
    | false =>
      cases op with
      | add => exact overflows_add.mirrors hl hr
      | sub => exact overflows_sub.mirrors hl hr
      | mul => exact overflows_mul.mirrors hl hr
      | shl | shr => cases hshift
      | _ =>
        intro r s' hok
        unfold overflowing at hok
        simp only [hundef, hptr] at hok
        cases hok
  cases hl with
  | undef => exact .pure ⟨.undef, .undef⟩
  | ptr p =>
    cases hr with
    | undef => exact .pure ⟨.undef, .undef⟩
    | ptr | bits | cells => exact .of_error rfl
  | bits | cells =>
    cases hr with
    | undef => exact .pure ⟨.undef, .undef⟩
    | ptr => exact .of_error rfl
    | bits | cells => exact hwords _ _ rfl rfl

theorem mirrors_unary {op : UnOp} {a' : Scalar} (ha : a.Agrees v a') :
    Mirrors (view v s0) E D (Scalar.Agrees v) (unary op a kind) (unary op a' kind) s := by
  have hnot : ∀ mask : Int, Mirrors (view v s0) E D (Scalar.Agrees v)
      (binary .bitXor a (.ofBits mask kind) kind none)
      (binary .bitXor a' (.ofBits mask kind) kind none) s := fun mask =>
    mirrors_binary ha (.ofBits mask kind) (fun _ => rfl) (by rintro (h | h) <;> cases h)
  have hneg : Mirrors (view v s0) E D (Scalar.Agrees v)
      (binary .sub (.ofNat 0) a kind none) (binary .sub (.ofNat 0) a' kind none) s :=
    mirrors_binary (.ofNat 0) ha (fun _ => rfl) (by rintro (h | h) <;> cases h)
  unfold unary
  cases ha with
  | undef => exact .pure .undef
  | ptr => exact .fail _
  | bits p =>
    cases hfloat : kind.isFloat with
    | true =>
      cases op with
      | not => exact .of_error rfl
      | neg => exact .pure (.bits _)
    | false =>
      cases op with
      | not => exact hnot _
      | neg => exact hneg
  | cells =>
    cases hfloat : kind.isFloat with
    | true => cases op <;> exact .of_error rfl
    | false =>
      cases op with
      | not => exact hnot _
      | neg => exact hneg

theorem swapBytes_agrees {a' : Scalar} (ha : a.Agrees v a')
    (hlength : ∀ list, a = .cells list → list.length = kind.numBytes) (h : swapBytes a kind = .ok r) :
    ∃ r', r.Agrees v r' ∧ swapBytes a' kind = .ok r' := by
  cases ha with
  | undef =>
    cases h
    exact ⟨.undef, .undef, rfl⟩
  | ptr => cases h
  | bits p =>
    cases h
    exact ⟨_, .ofBits _ kind, rfl⟩
  | @cells list p hsymbols hlow =>
    cases h
    have hlen := hlength list rfl
    have hagrees : (cells list.reverse).Agrees v
        (.ofBits (valueOf v list.reverse) kind) :=
      .cells_ofBits (by rw [length_reverse, hlen]) (by simpa using hsymbols)
    refine ⟨_, hagrees, ?_⟩
    change Except.ok (ofBits (valueOf _ (ofNat p.toNat kind.numBytes).reverse) kind)
      = _
    rw [← hlen, ofNat_eq_ground hlow, ← map_reverse, valueOf_ground]

end Operator

/-! ## Choices and counts -/

namespace Store

variable {v : Valuation} {s0 s : Store} {E : EvalError → Prop} {D : Prop} {act' : Run Store Scalar}

theorem mirrors_select {cond yes no : Scalar} {kind : Kind}
    (h : ∀ c a b, s.truth cond = .ok c → s.term yes kind = .ok a → s.term no kind = .ok b →
      Performs E D s0 act' (.ofBits ((Term.choose c a b).eval v).toNat kind)) :
    Mirrors (view v s0) E D (Scalar.Agrees v) (select cond yes no kind) act' s := by
  refine .getBind (.liftBind fun c hc => .liftBind fun a ha => .liftBind fun b hb => ?_)
  refine mirrors_derive (fun i hi => ?_) (h c a b hc ha hb)
  simp only [Term.symbols, mem_append] at hi
  rcases hi with (hi | hi) | hi
  · exact symbols_truth_lt hc i hi
  · exact symbols_term_lt ha i hi
  · exact symbols_term_lt hb i hi

theorem mirrors_countBits {way : BitCount} {a : Scalar} {p : BitVec 128} {kind : Kind}
    (ha : a.Agrees v (.bits p))
    (h : Performs E D s0 act' (.ofBits (way.eval (p.setWidth kind.bits)).toNat kind)) :
    Mirrors (view v s0) E D (Scalar.Agrees v) (countBits way a kind) act' s := by
  refine .getBind (.liftBind fun t ht => ?_)
  obtain ⟨_, ⟨⟩, heval⟩ := term_agrees ha ht
  have hscope : ∀ i ∈ (Term.count way t).symbols, i < s.size := fun i hi => symbols_term_lt ht i hi
  refine mirrors_derive hscope ?_
  rwa [Term.eval, heval]

end Store

/-! ## Casts -/

namespace Cell

variable {v : Valuation}

theorem valueOf_take (cs : List Cell) (h : n ≤ cs.length) :
    valueOf v (cs.take n) = valueOf v cs % 256 ^ n := by
  have hsplit := valueOf_append v (cs.take n) (cs.drop n)
  have hlength : (cs.take n).length = n := by rw [length_take, min_eq_left h]
  have hlt := valueOf_lt v (cs.take n)
  rw [take_append_drop, hlength] at hsplit
  rw [hlength] at hlt
  rw [hsplit, add_mul_mod_self_left, mod_eq_of_lt hlt]

theorem valueOf_zeros (n : Nat) : valueOf v (replicate n (known 0)) = 0 := by
  induction n with
  | zero => rfl
  | succ n ih =>
    rw [replicate_succ, valueOf, ih]
    rfl

end Cell

theorem Kind.ofInt_number_of_le {kind : Kind} {w : Nat} (h : w ≤ kind.bits) (a : BitVec kind.bits) :
    BitVec.ofInt w (kind.number a) = a.setWidth w := by
  unfold number
  split
  · exact BitVec.signExtend_eq_setWidth_of_le a h
  · rw [BitVec.ofInt_natCast, BitVec.ofNat_toNat]

namespace Cast

variable {v : Valuation} {s0 s : Store} {E : EvalError → Prop} {D : Prop}
variable {dest source : Ty} {p : BitVec 128} {sk : Kind} {cells : List Cell}

theorem resize_agrees {r : List Cell} {source dest : Kind}
    (hlength : cells.length = source.numBytes)
    (hlow : p.toNat % 256 ^ cells.length = valueOf v cells)
    (h : resize cells source dest = .ok r) :
    r.length = dest.numBytes ∧
      BitVec.ofInt dest.bits (numberOf source p)
        = BitVec.ofNat dest.bits (valueOf v r) := by
  have hword : p.setWidth source.bits = BitVec.ofNat source.bits (valueOf v cells) := by
    apply BitVec.eq_of_toNat_eq
    rw [BitVec.toNat_setWidth, BitVec.toNat_ofNat, ← hlow, hlength, pow_numBytes, mod_mod]
  have hlt : valueOf v cells < 2 ^ source.bits := by
    rw [← pow_numBytes, ← hlength]
    exact valueOf_lt v cells
  have hcut : dest.numBytes ≤ source.numBytes → BitVec.ofInt dest.bits (numberOf source p)
      = BitVec.ofNat dest.bits (valueOf v cells) := by
    intro hle
    have hbits : dest.bits ≤ source.bits := mul_le_mul_left 8 hle
    rw [Operator.numberOf_eq_number, Kind.ofInt_number_of_le hbits, hword]
    apply BitVec.eq_of_toNat_eq
    rw [BitVec.toNat_setWidth, BitVec.toNat_ofNat, BitVec.toNat_ofNat,
      mod_mod_of_dvd _ (pow_dvd_pow 2 hbits)]
  unfold resize at h
  split at h
  · rename_i hlt
    cases h
    refine ⟨by rw [length_take, hlength]; omega, ?_⟩
    rw [hcut (le_of_lt hlt), valueOf_take cells (by omega), pow_numBytes]
    apply BitVec.eq_of_toNat_eq
    rw [BitVec.toNat_ofNat, BitVec.toNat_ofNat, mod_mod]
  · split at h
    · rename_i hwider
      split at h
      · cases h
      · rename_i hunsigned
        cases h
        refine ⟨by rw [length_append, length_replicate, hlength]; omega, ?_⟩
        rw [valueOf_append, valueOf_zeros, mul_zero, add_zero,
          Operator.numberOf_eq_number, Kind.number, if_neg hunsigned, hword, BitVec.toNat_ofNat,
          mod_eq_of_lt hlt, BitVec.ofInt_natCast]
    · cases h
      exact ⟨by omega, hcut (by omega)⟩

theorem agrees_toChar {n : Int} {a : Scalar} (h : toChar n = .ok a) : a.Agrees v a := by
  unfold toChar at h
  split at h
  · cases h
    exact .ofInt n
  · cases h

theorem ofBits_char {n : Int} (h : 0 ≤ n ∧ n ≤ 0xff) : ofBits n .char = .ofInt n := by
  obtain ⟨k, rfl⟩ := Int.eq_ofNat_of_zero_le h.1
  have hk : k ≤ 255 := by exact_mod_cast h.2
  refine congrArg Scalar.bits (BitVec.eq_of_toNat_eq ?_)
  simp only [Kind.isSigned, Bool.false_eq_true, if_false, BitVec.ofInt_natCast, BitVec.toNat_setWidth,
    BitVec.toNat_ofNat]
  have : Kind.char.bits = 32 := rfl
  rw [this]
  omega

theorem toChar_cases (n : Int) (hE : ∀ n, E (.invalidChar n)) :
    toChar n = .ok (.ofBits n .char) ∨ ∃ x, toChar n = .error x ∧ E x := by
  unfold toChar
  split
  · rename_i hrange
    exact .inl (by rw [ofBits_char hrange])
  · exact .inr ⟨_, rfl, hE _⟩

/-- A number and its low bytes become the same character, unless the number is out of range. -/
theorem toChar_low {n : Int} (hp : bits p = .ofBits n .char)
    (h : toChar n = .ok (.ofBits n .char)) : toChar (numberOf .char p) = .ok (.bits p) := by
  unfold toChar at h
  split at h
  · rename_i hrange
    have hword : numberOf .char p = n := by
      have hlow := setWidth_of_ofBits hp.symm
      obtain ⟨k, rfl⟩ := Int.eq_ofNat_of_zero_le hrange.1
      have hk : k ≤ 255 := by exact_mod_cast hrange.2
      have hbits : Kind.char.bits = 32 := rfl
      rw [Operator.numberOf_eq_number, hlow, Kind.number, if_neg (by simp [Kind.isSigned]), hbits,
        BitVec.ofInt_natCast, BitVec.toNat_ofNat]
      omega
    rw [hword, hp, toChar, if_pos hrange, ofBits_char hrange]
  · cases h

theorem known_int {dk : Kind}
    (hs : source.category = .int ∨ source.category = .char ∨ source.category = .bool)
    (hd : dest.category = .int) (hsk : source.kind = .ok sk) (hdk : dest.kind = .ok dk) :
    known p source dest = .ok (.ofBits (numberOf sk p) dk) := by
  unfold known
  rcases hs with hs | hs | hs <;> rw [hs, hd, hsk, hdk] <;> rfl

theorem known_char (hs : source.category = .int ∨ source.category = .char)
    (hsk : source.kind = .ok sk) : known p source .char = toChar (numberOf sk p) := by
  unfold known
  rcases hs with hs | hs <;> rw [hs, hsk] <;> rfl

theorem mirrors_ints (hs : source.category = .int ∨ source.category = .char)
    (hd : dest.category = .int ∨ dest.category = .char)
    (hlength : ∀ kind, source.kind = .ok kind → cells.length = kind.numBytes)
    (hlow : p.toNat % 256 ^ cells.length = valueOf v cells) (hE : ∀ n, E (.invalidChar n)) :
    Mirrors (view v s0) E D (Scalar.Agrees v)
      (do
        let destKind ← dest.kind
        match ofCells (← resize cells (← source.kind) destKind) destKind with
        | .bits pattern =>
          if dest.category = .char then toChar (numberOf destKind pattern)
          else return .bits pattern
        | v => return v)
      (liftM (known p source dest)) s := by
  refine .errorBind fun dk hdk => .errorBind fun sk hsk => .errorBind fun r hr => ?_
  obtain ⟨hrlength, hnumber⟩ := resize_agrees (hlength sk hsk) hlow hr
  have hvalue : ofBits (valueOf v r) dk = .ofBits (numberOf sk p) dk :=
    ofBits_congr (by rw [hnumber, BitVec.ofInt_natCast])
  have hagrees : (ofCells r dk).Agrees v (.ofBits (numberOf sk p) dk) := by
    rw [← hvalue]
    exact .ofCells hrlength
  rcases hd with hd | hd
  · rw [known_int (by tauto) hd hsk hdk, hd]
    generalize ofCells r dk = a at hagrees
    cases a <;> exact .pure hagrees
  · obtain rfl : dest = .char := by
      cases dest <;> cases hd
      rfl
    cases hdk
    rw [known_char hs hsk, hd]
    generalize ofCells r .char = a at hagrees
    rcases toChar_cases (numberOf sk p) hE with hok | ⟨x, hfails, hx⟩
    · rw [hok]
      cases a with
      | bits q =>
        obtain hq : bits q = .ofBits (numberOf sk p) .char := by
          generalize ofBits (numberOf sk p) .char = b at hagrees
          cases hagrees
          rfl
        simp only [if_true, toChar_low hq hok]
        exact .pure hagrees
      | _ => exact .pure hagrees
    · rw [hfails]
      cases a with
      | bits q =>
        simp only [if_true]
        exact .liftError fun b hb => ⟨⟨b, agrees_toChar hb⟩, .inr ⟨x, rfl, hx⟩⟩
      | _ =>
        refine .liftError (e := .ok _) fun b hb => ?_
        cases hb
        exact ⟨⟨_, hagrees⟩, .inr ⟨x, rfl, hx⟩⟩

theorem holds_isTrue_iff {list : List Cell} (h : list.length = 1) :
    (Decision.isTrue list).holds v = true ↔ valueOf v list ≠ 0 := by
  have hlt := valueOf_lt v list
  rw [h, pow_one] at hlt
  rw [Decision.holds_isTrue, not_iff_not, BitVec.toNat_eq, BitVec.toNat_ofNat]
  simp [mod_eq_of_lt hlt]

/-- A symbolic truth value becomes zero or one, a known one stays the number that it is. -/
theorem mirrors_truth (hs : source.category = .bool) (hd : dest.category = .int)
    (hlow : p.toNat % 256 ^ cells.length = valueOf v cells) (hD : 1 < valueOf v cells → D) :
    Mirrors (view v s0) E D (Scalar.Agrees v)
      (do
        let destKind ← dest.kind
        select (.cells cells) (.ofBits 1 destKind) (.ofBits 0 destKind) destKind)
      (liftM (known p source dest)) s := by
  refine .errorBind fun dk hdk => ?_
  refine mirrors_select fun c a b hc ha hb => ?_
  obtain ⟨rfl, hlength⟩ := Decision.truth_cells_eq_ok hc
  obtain rfl : source = .bool := by
    cases source <;> cases hs
    rfl
  have hknown : known p .bool dest = .ok (.ofBits (numberOf .bool p) dk) :=
    known_int (.inr (.inr rfl)) hd rfl hdk
  have hnumber : numberOf .bool p = valueOf v cells := by
    rw [hlength, pow_one] at hlow
    rw [← hlow, Operator.numberOf_eq_number, Kind.number, if_neg (by simp [Kind.isSigned]),
      BitVec.toNat_setWidth]
    rfl
  have heval : ∀ n t, s.term (.ofBits n dk) dk = .ok t → t.eval v = BitVec.ofInt dk.bits n := by
    intro n t ht
    obtain ⟨q, hq, heval⟩ := term_agrees (.ofBits n dk) ht
    rw [heval, setWidth_of_ofBits hq]
  have hchoice : valueOf v cells ≤ 1 → (Term.choose (Decision.isTrue cells) a b).eval v
      = BitVec.ofInt dk.bits (valueOf v cells) := by
    intro hle
    have htrue := holds_isTrue_iff (v := v) hlength
    rw [Term.eval, Term.eval_of_holds, heval 1 a ha, heval 0 b hb]
    obtain hzero | hone : valueOf v cells = 0 ∨ valueOf v cells = 1 := by omega
    · rw [hzero] at htrue ⊢
      rw [Bool.eq_false_iff.2 fun h => htrue.1 h rfl]
      rfl
    · rw [hone] at htrue ⊢
      rw [htrue.2 (by decide)]
      rfl
  by_cases hle : valueOf v cells ≤ 1
  · refine .inl ?_
    rw [hknown, hnumber, ofBits_toNat (hchoice hle).symm]
    rfl
  · exact .inr (.inr (hD (by omega)))

theorem agrees_known {a : Scalar} (h : known p source dest = .ok a) : a.Agrees v a := by
  unfold known at h
  split at h
  case h_1 | h_2 | h_3 =>
    obtain ⟨_, -, h⟩ := bind_iff.1 h
    obtain ⟨_, -, ⟨⟩⟩ := bind_iff.1 h
    exact .ofBits _ _
  case h_4 | h_5 | h_6 =>
    obtain ⟨_, -, h⟩ := bind_iff.1 h
    exact agrees_toChar h
  case h_7 | h_8 =>
    obtain ⟨_, -, ⟨⟩⟩ := bind_iff.1 h
    exact .ofNat _
  case h_9 =>
    split at h
    · obtain ⟨_, -, ⟨⟩⟩ := bind_iff.1 h
      exact .ofBits _ _
    · cases h
  case h_10 =>
    split at h
    · cases h
      exact .ofNat _
    · cases h

theorem mirrors_cast {a a' : Scalar} (ha : a.Agrees v a')
    (hlength : source.category = .int ∨ source.category = .char →
      ∀ list kind, a = .cells list → source.kind = .ok kind → list.length = kind.numBytes)
    (hE : ∀ n, E (.invalidChar n))
    (hD : ∀ list, a = .cells list → source.category = .bool → 1 < valueOf v list → D) :
    Mirrors (view v s0) E D (Scalar.Agrees v) (cast a source dest) (cast a' source dest) s := by
  cases ha with
  | undef => exact .pure .undef
  | bits p => exact .lift_of_ok fun r hr => ⟨r, agrees_known hr, hr⟩
  | ptr p =>
    refine .lift_of_ok fun r hr => ?_
    unfold pointer at hr ⊢
    split at hr
    · cases hr
      exact ⟨_, .ptr p, rfl⟩
    · cases hr
      exact ⟨_, .ptr p, rfl⟩
    · split at hr
      · rename_i hsized
        cases hr
        exact ⟨_, .ptr p, if_pos hsized⟩
      · cases hr
    · cases hr
  | @cells list p hsymbols hlow =>
    have hlen := fun hs kind => hlength hs list kind rfl
    change Mirrors _ _ _ _ (symbolic list source dest) (liftM (known p source dest)) _
    unfold symbolic
    split
    case h_1 hs hd => exact mirrors_ints (.inl hs) (.inl hd) (hlen (.inl hs)) hlow hE
    case h_2 hs hd => exact mirrors_ints (.inl hs) (.inr hd) (hlen (.inl hs)) hlow hE
    case h_3 hs hd => exact mirrors_ints (.inr hs) (.inl hd) (hlen (.inr hs)) hlow hE
    case h_4 hs hd => exact mirrors_ints (.inr hs) (.inr hd) (hlen (.inr hs)) hlow hE
    case h_5 hs hd => exact mirrors_truth hs hd hlow fun hlt => hD list rfl hs hlt
    case h_6 => exact .of_error rfl

end Cast
end SymExec

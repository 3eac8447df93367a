import SymExec.Proofs.Exchange

/-!
# Pointer arithmetic

A pointer is moved by a number of elements. If both are known, the new offset is computed with exact
numbers and wrapped around. Otherwise a product and a sum of 64 bits are recorded, and either of them may
turn out to be constant, so a pointer can become symbolic by one call and known again by the next one.
All ways agree: under all values of the symbolic bytes that agree with what the store records, the offset
at the end of a chain of calls is the sum of the first one and all distances, modulo the size of the
address space (`Machine.pointer_arithmetic`).
-/
namespace SymExec

open Run

/-! ## Words of 64 bits -/

namespace Scalar

variable {kind : Kind} {s : Store} {a : Scalar}

/-- The signed number that a value of 64 bits is; zero if it is none. -/
def signed (v : Valuation) (a : Scalar) : Int := ((a.word? v .i64).map BitVec.toInt).getD 0

theorem word?_ofInt (v : Valuation) (n : Int) :
    (ofInt n).word? v .i64 = some (BitVec.ofInt _ n) := by
  have hlow : (BitVec.ofInt 128 n).setWidth 64 = BitVec.ofInt 64 n := by
    apply BitVec.eq_of_toNat_eq
    rw [BitVec.toNat_setWidth, BitVec.toNat_ofInt, BitVec.toNat_ofInt]
    omega
  exact congrArg some hlow

theorem word?_ofNat (v : Valuation) (n : Nat) :
    (ofNat n).word? v .i64 = some (BitVec.ofInt _ n) := by
  rw [← word?_ofInt, ofInt, BitVec.ofInt_natCast, ofNat]

theorem word?_of_term {t : Term kind.bits} (h : s.term a kind = .ok t) (v : Valuation) :
    a.word? v kind = some (t.eval v) := by
  rcases Store.term_eq_ok.1 h with ⟨p, rfl, rfl⟩ | ⟨list, rfl, -, -, rfl⟩
  · rfl
  · rfl

end Scalar

theorem Pointer.word?_known (v : Valuation) (id : Nat) (x : BitVec 64) :
    (known id x.toNat).offset.word? v .i64 = some x := by
  rw [offset, Scalar.word?_ofNat, BitVec.ofInt_natCast, BitVec.ofNat_toNat]
  exact congrArg some (BitVec.setWidth_eq x)

@[simp] theorem Pointer.alloc_atOffset (id : Nat) (a : Scalar) : (atOffset id a).alloc = id := by
  cases a <;> rfl

theorem Pointer.word?_atOffset (v : Valuation) (id : Nat) (a : Scalar) :
    (atOffset id a).offset.word? v .i64 = a.word? v .i64 := by
  cases a with
  | bits p => exact word?_known v id (p.setWidth 64)
  | cells | ptr | undef => rfl

namespace Store

variable {s s' : Store} {kind : Kind} {op : BinOp} {lhs rhs r : Scalar}

/-- An operation that is recorded has words as its operands, and its result is the word that the operation
makes of them. -/
theorem binary_eq_ok (hshift : op.isShift = false) (h : binary op lhs rhs kind none s = .ok r s') :
    s.Derives s' ∧ ∀ v, s'.Satisfied v → ∃ a b : Term kind.bits,
      lhs.word? v kind = some (a.eval v) ∧ rhs.word? v kind = some (b.eval v) ∧
      r.word? v (op.resultKind kind)
        = ((combine kind.isSigned op a b).value v kind).word? v (op.resultKind kind) := by
  have hderives := keeps_binary op lhs rhs kind none s
  rw [final_of_ok h] at hderives
  obtain ⟨_, _, ⟨⟩, hrest⟩ := bind_eq_ok.1 h
  obtain ⟨a, ha, hrest⟩ := ofBind_eq_ok.1 hrest
  obtain ⟨b, hb, -⟩ := ofBind_eq_ok.1 hrest
  have hsecond : s.term rhs kind = .ok b := by
    rw [secondOperand, hshift] at hb
    obtain ⟨t, ht, hcast⟩ := bind_iff.1 hb
    have hb : t = b := Except.ok.inj ((dif_pos rfl).symm.trans hcast)
    exact hb ▸ ht
  obtain ⟨r', s'', hbinary, -, hword⟩ := binary_word ha hb
  cases h.symm.trans hbinary
  exact ⟨hderives, fun v hv =>
    ⟨a, b, Scalar.word?_of_term ha v, Scalar.word?_of_term hsecond v, hword v hv⟩⟩

/-- An operation on words can be recorded. -/
theorem binary_of_fits (op : BinOp) (hshift : op.isShift = false) (hl : lhs.Fits s kind)
    (hr : rhs.Fits s kind) :
    ∃ r s', binary op lhs rhs kind none s = .ok r s' ∧ s.Derives s' ∧
      r.Fits s' (op.resultKind kind) := by
  have hsecond : op.secondKind kind none = kind := by
    rw [BinOp.secondKind, hshift]
    rfl
  obtain ⟨a, ha, -⟩ := exists_term_word hl
  obtain ⟨b, hb, -⟩ := secondOperand_of_fits (hsecond.symm ▸ hr) fun _ => rfl
  obtain ⟨r, s', hbinary, hfits, -⟩ := binary_word ha hb
  exact ⟨r, s', hbinary, (binary_eq_ok hshift hbinary).1, hfits⟩

end Store

theorem Memory.readScalar_ptr_written {m m' : Memory} {p q : Pointer} {align : Int}
    (h : writeScalar p (.ptr q) pointerSize align m = .ok () m') :
    m'.store = m.store ∧ ∀ kind, m'.readScalar p pointerSize kind align = .ok (.ptr q) := by
  obtain ⟨id, offset, a, hchecked, -, hput⟩ := writeScalar_eq_ok (Int.natCast_nonneg _) h
  rw [if_neg (by decide)] at hput
  subst hput
  obtain ⟨-, hfind, hle⟩ := checked_eq_ok hchecked
  have hchanges (b : Allocation) (hb : m.find? id = some b) :
      Allocation.Changes offset pointerSize b (b.put offset pointerSize (.ptr q)) := by
    cases hfind.symm.trans hb
    exact Allocation.changes_put_ptr hle q
  refine ⟨rfl, fun kind => ?_⟩
  rw [readScalar_eq_bind, excerpt, checked_update hchanges, hchecked]
  simp only [Except.map, if_true]
  change Excerpt.scalar _ _ _ = _
  rw [Excerpt.scalar, Allocation.pointers_put_ptr]
  rfl

namespace Machine

variable {m m' : Machine} {c : IntrinsicCall} {p q : Pointer} {size : Int} {count : Scalar}
variable {r : Scalar} {d : PlaceRef}

/-! ## Results -/

theorem result_ptr_eq_ok (hdest : c.dest = some d) (hkind : d.ty.kind = .ok .ptr)
    (h : c.result (.ptr q) m = .ok () m') :
    m'.memory.store = m.memory.store ∧ readScalar d.ptr d.ty m' = .ok (.ptr q) m' := by
  unfold IntrinsicCall.result at h
  rw [hdest] at h
  simp only [writeScalar_of_kind hkind] at h
  obtain ⟨memory, hwrite, rfl⟩ := onMemory_eq_ok h
  obtain ⟨hstore, hread⟩ := Memory.readScalar_ptr_written hwrite
  refine ⟨hstore, ?_⟩
  rw [readScalar_of_kind hkind]
  exact of_eq_ok.2 ⟨lift_eq_ok.2 (hread .ptr), rfl⟩

theorem result_ptr_of_checked (hdest : c.dest = some d) (hkind : d.ty.kind = .ok .ptr)
    {x : Nat × Nat × Allocation} (hchecked : m.memory.checked d.ptr pointerSize pointerSize = .ok x)
    (q : Pointer) : ∃ m', c.result (.ptr q) m = .ok () m' := by
  obtain ⟨id, offset, a⟩ := x
  have hwrite := Memory.writeScalar_ptr_eq hchecked q
  unfold IntrinsicCall.result
  rw [hdest]
  simp only [writeScalar_of_kind hkind]
  unfold onMemory
  exact ⟨_, by rw [show (Kind.ptr.numBytes : Int) = pointerSize from rfl, hwrite]⟩

/-! ## One call -/

/-- `q` points into the allocation that `p` points into, and under all values that agree with what the
store records it is `distance` bytes further, modulo the size of the address space. -/
structure Displaced (s : Store) (distance : Valuation → Int) (p q : Pointer) : Prop where
  alloc : q.alloc = p.alloc
  word (v : Valuation) : s.Satisfied v → ∀ x, p.offset.word? v .i64 = some x →
    q.offset.word? v .i64 = some (x + BitVec.ofInt _ (distance v))

theorem Displaced.refl (s : Store) (p : Pointer) : Displaced s (fun _ => 0) p p :=
  ⟨rfl, fun v _ x hx => by simpa using hx⟩

theorem Displaced.trans {s s' : Store} {distance distance' : Valuation → Int} {r : Pointer}
    (h : Displaced s distance p q) (hkept : ∀ d ∈ s.definitions, d ∈ s'.definitions)
    (h' : Displaced s' distance' q r) : Displaced s' (fun v => distance v + distance' v) p r := by
  refine ⟨h'.alloc.trans h.alloc, fun v hv x hx => ?_⟩
  rw [h'.word v hv _ (h.word v (fun d hd => hv d (hkept d hd)) x hx), BitVec.ofInt_add,
    BitVec.add_assoc]

/-- The distance of a number of elements. -/
def stride (size : Int) (count : Scalar) (v : Valuation) : Int := size * count.signed v

/-- The product and the sum are recorded, or one of them is constant. -/
theorem symbolicOffset_eq_ok (h : symbolicOffset (.ptr p) count size m = .ok r m') :
    ∃ q s, r = .ptr q ∧ m' = m.withStore s ∧ m.memory.store.Derives s ∧
      Displaced s (stride size count) p q := by
  obtain ⟨scaled, m1, hmul, h⟩ := bind_eq_ok.1 h
  obtain ⟨offset, m2, hadd, ⟨⟩⟩ := bind_eq_ok.1 h
  obtain ⟨s1, hscaled, rfl⟩ := onStore_eq_ok hmul
  obtain ⟨s2, hmoved, rfl⟩ := onStore_eq_ok hadd
  obtain ⟨hderives, hproduct⟩ := Store.binary_eq_ok rfl hscaled
  obtain ⟨hderives', hsum⟩ := Store.binary_eq_ok rfl hmoved
  refine ⟨.atOffset p.alloc offset, s2, rfl, rfl, hderives.trans hderives',
    Pointer.alloc_atOffset _ _, fun v hv x hx => ?_⟩
  obtain ⟨a, b, ha, hb, hab⟩ := hproduct v fun d hd => hv d (hderives'.mem_definitions hd)
  obtain ⟨base, delta, hbase, hdelta, hoffset⟩ := hsum v hv
  have hcount : count.signed v = (b.eval v).toInt := by
    rw [Scalar.signed, hb]
    rfl
  have hsize : a.eval v = BitVec.ofInt _ size :=
    Option.some.inj (ha.symm.trans (Scalar.word?_ofInt v size))
  have hdelta : delta.eval v = a.eval v * b.eval v :=
    Option.some.inj (hdelta.symm.trans (hab.trans (Scalar.word?_toNat v _)))
  have hbase : x = base.eval v := Option.some.inj (hx.symm.trans hbase)
  rw [Pointer.word?_atOffset]
  refine (hoffset.trans (Scalar.word?_toNat v _)).trans (congrArg some ?_)
  change base.eval v + delta.eval v = _
  rw [hbase, hdelta, hsize, stride, hcount, BitVec.ofInt_mul, BitVec.ofInt_toInt]

/-- Words can be recorded: no such move fails. -/
theorem symbolicOffset_of_fits (hp : p.offset.Fits m.memory.store .i64)
    (hcount : count.Fits m.memory.store .i64) (size : Int) :
    ∃ q s, symbolicOffset (.ptr p) count size m = .ok (.ptr q) (m.withStore s) := by
  have hsize : (Scalar.ofInt size).Fits m.memory.store .i64 := .bits _
  obtain ⟨scaled, s1, hmul, hderives, hscaled⟩ := Store.binary_of_fits .mul rfl hsize hcount
  obtain ⟨offset, s2, hadd, -⟩ :=
    Store.binary_of_fits .add rfl (hp.mono hderives.size_le) hscaled
  refine ⟨.atOffset p.alloc offset, s2, ?_⟩
  refine bind_eq_ok.2 ⟨scaled, _, onStore_of_ok hmul, ?_⟩
  exact bind_eq_ok.2 ⟨offset, _, onStore_of_ok (m := m.withStore s1) hadd, rfl⟩

/-- A call of `offset` or `arith_offset` for a pointer, elements of a size and a number of them. -/
structure IntrinsicCall.OnPointer (c : IntrinsicCall) (m : Machine) (wrapping : Bool) (p : Pointer)
    (size : Int) (count : Scalar) : Prop where
  intrinsic : c.intrinsic = .offset wrapping
  arity : c.args.length = 2
  elem : ∃ ty, c.elemType = .ok ty ∧ ty.size = .ok size
  base : c.prim 0 m = .ok (.ptr p) m
  count : c.prim 1 m = .ok count m

variable {wrapping : Bool} {id o : Nat}

/-- What a call makes of a pointer. -/
def moved (p : Pointer) (size : Int) (count : Scalar) (wrapping : Bool) : Run Machine Scalar :=
  match p, count with
  | _, .undef => Run.fail .undefinedRead
  | .known id o, .bits n => knownOffset (.ptr (.known id o)) ((n.setWidth 64).toInt * size) wrapping
  | .known _ _, .ptr _ => Run.fail .pointerAsBytes
  | p, count => symbolicOffset (.ptr p) count size

theorem IntrinsicCall.OnPointer.callIntrinsic_eq (h : c.OnPointer m wrapping p size count) :
    callIntrinsic c m = (moved p size count wrapping >>= c.result) m := by
  obtain ⟨ty, helem, hsize⟩ := h.elem
  have helem : (liftM c.elemType : Run Machine Ty) m = .ok ty m := of_eq_ok.2 ⟨helem, rfl⟩
  have hsize : (liftM ty.size : Run Machine Int) m = .ok size m :=
    of_eq_ok.2 ⟨lift_eq_ok.2 hsize, rfl⟩
  have harity : ¬ c.args.length ≠ c.intrinsic.arity := by
    rw [h.intrinsic, h.arity]
    exact not_not_intro rfl
  rw [callIntrinsic, if_neg harity, perform, h.intrinsic]
  change offset c wrapping m = _
  rw [offset, bind_of_ok helem, bind_of_ok hsize, bind_of_ok h.base, bind_of_ok h.count]
  cases p <;> cases count <;> rfl

/-- A pointer with a known offset wraps around, but where it must not leave its allocation it does not
even by wrapping. -/
theorem knownOffset_eq_ok {delta : Int} :
    knownOffset (.ptr (.known id o)) delta wrapping m = .ok r m' ↔
      (wrapping = false → ∃ a, m.memory.find? id = some a ∧ 0 ≤ o + delta ∧ o + delta ≤ a.size) ∧
      r = .ptr (.known id (BitVec.ofInt 64 (o + delta)).toNat) ∧ m' = m := by
  cases wrapping with
  | true =>
    constructor
    · rintro ⟨⟩
      exact ⟨nofun, rfl, rfl⟩
    · rintro ⟨-, rfl, rfl⟩
      rfl
  | false =>
    have hrun : knownOffset (.ptr (.known id o)) delta false m = (do
        let a ← m.memory.get id
        if o + delta < 0 || (a.size : Int) < o + delta then Run.fail .offsetOutside
        return .ptr (.known id (BitVec.ofInt 64 (o + delta)).toNat) : Run Machine Scalar) m := rfl
    rw [hrun]
    constructor
    · intro h
      obtain ⟨a, ha, hrest⟩ := liftBind_eq_ok.1 h
      have hfind := Memory.get_eq_ok.1 ha
      split at hrest
      · cases hrest
      · rename_i hinside
        cases hrest
        simp only [Bool.or_eq_true, decide_eq_true_eq, not_or, not_lt] at hinside
        exact ⟨fun _ => ⟨a, hfind, hinside⟩, rfl, rfl⟩
    · rintro ⟨h, rfl, rfl⟩
      obtain ⟨a, hfind, hlow, hhigh⟩ := h rfl
      have hinside : ¬ (decide (o + delta < 0) || decide ((a.size : Int) < o + delta)) = true := by
        simp only [Bool.or_eq_true, decide_eq_true_eq, not_or, not_lt]
        exact ⟨hlow, hhigh⟩
      have hget : (liftM (m'.memory.get id) : Run Machine Allocation) m' = .ok a m' :=
        of_eq_ok.2 ⟨lift_eq_ok.2 (Memory.get_eq_ok.2 hfind), rfl⟩
      rw [bind_of_ok hget, if_neg hinside]
      rfl

/-- A call that succeeds moves the pointer. -/
theorem moved_eq_ok (h : moved p size count wrapping m = .ok r m') :
    ∃ q s, r = .ptr q ∧ m' = m.withStore s ∧ m.memory.store.Derives s ∧
      Displaced s (stride size count) p q := by
  unfold moved at h
  split at h
  · cases h
  · rename_i id o n
    obtain ⟨-, rfl, rfl⟩ := knownOffset_eq_ok.1 h
    refine ⟨_, m'.memory.store, rfl, rfl, .refl, rfl, fun v _ x hx => ?_⟩
    have hx : BitVec.ofInt _ o = x := Option.some.inj ((Scalar.word?_ofNat v o).symm.trans hx)
    have hdistance : (n.setWidth 64).toInt * size = stride size (.bits n) v := Int.mul_comm _ _
    rw [Pointer.word?_known, ← hx, hdistance, BitVec.ofInt_add]
    rfl
  · cases h
  · exact symbolicOffset_eq_ok h

/-- A call that moves `p` by a number of elements leaves `q` in its destination, where pointers are
kept. -/
structure IntrinsicCall.Moves (c : IntrinsicCall) (m m' : Machine) (p : Pointer) (size : Int)
    (count : Scalar) (q : Pointer) : Prop where
  onPointer : ∃ wrapping, c.OnPointer m wrapping p size count
  call : callIntrinsic c m = .ok () m'
  dest : ∃ d, c.dest = some d ∧ d.ty.kind = .ok .ptr ∧ readScalar d.ptr d.ty m' = .ok (.ptr q) m'

theorem IntrinsicCall.OnPointer.exists_moves (h : c.OnPointer m wrapping p size count)
    (hcall : callIntrinsic c m = .ok () m') (hdest : c.dest = some d) (hkind : d.ty.kind = .ok .ptr) :
    ∃ q, c.Moves m m' p size count q ∧ Displaced m'.memory.store (stride size count) p q ∧
      ∀ d ∈ m.memory.store.definitions, d ∈ m'.memory.store.definitions := by
  obtain ⟨r, m1, hr, hresult⟩ := bind_eq_ok.1 (h.callIntrinsic_eq ▸ hcall)
  obtain ⟨q, s, rfl, rfl, hderives, hdisplaced⟩ := moved_eq_ok hr
  obtain ⟨hstore, hread⟩ := result_ptr_eq_ok hdest hkind hresult
  have hstore : m'.memory.store = s := hstore
  rw [hstore]
  exact ⟨q, ⟨⟨wrapping, h⟩, hcall, d, hdest, hkind, hread⟩, hdisplaced, fun _ => hderives.mem_definitions⟩

theorem IntrinsicCall.Moves.displaced (h : c.Moves m m' p size count q) :
    Displaced m'.memory.store (stride size count) p q ∧
      ∀ d ∈ m.memory.store.definitions, d ∈ m'.memory.store.definitions := by
  obtain ⟨⟨wrapping, honPointer⟩, hcall, d, hdest, hkind, hread⟩ := h
  obtain ⟨q', ⟨-, -, d', hdest', -, hread'⟩, hmoved⟩ := honPointer.exists_moves hcall hdest hkind
  cases hdest.symm.trans hdest'
  cases hread.symm.trans hread'
  exact hmoved

/-! ## Chains of calls -/

/-- Calls that move a pointer one after another, each by a number of elements of a size. What the machine
does in between may be anything that keeps what the store records. -/
inductive Travels : Machine → Pointer → List (Int × Scalar) → Machine → Pointer → Prop where
  | rest (m : Machine) (p : Pointer) : Travels m p [] m p
  | call {m m1 m2 m' : Machine} {p q r : Pointer} {c : IntrinsicCall} {size : Int} {count : Scalar}
    {hops : List (Int × Scalar)} (hmoves : c.Moves m m1 p size count q)
    (hkept : ∀ d ∈ m1.memory.store.definitions, d ∈ m2.memory.store.definitions)
    (hrest : Travels m2 q hops m' r) : Travels m p ((size, count) :: hops) m' r

def distance (hops : List (Int × Scalar)) (v : Valuation) : Int :=
  (hops.map fun hop => stride hop.1 hop.2 v).sum

theorem Travels.displaced {hops : List (Int × Scalar)} (h : Travels m p hops m' q) :
    Displaced m'.memory.store (distance hops) p q ∧
      ∀ d ∈ m.memory.store.definitions, d ∈ m'.memory.store.definitions := by
  induction h with
  | rest m p => exact ⟨.refl _ p, fun _ => id⟩
  | call hmoves hkept _ ih =>
    obtain ⟨hfirst, hkept'⟩ := hmoves.displaced
    have hrest := fun d hd => ih.2 d (hkept d hd)
    exact ⟨hfirst.trans hrest ih.1, fun d hd => hrest d (hkept' d hd)⟩

/-! ## Staying inside -/

/-- A known pointer that must not wrap around can be moved if and only if it stays in its allocation or
right behind. -/
theorem IntrinsicCall.OnPointer.succeeds_iff {n : BitVec 128} {a : Allocation}
    {x : Nat × Nat × Allocation} (h : c.OnPointer m false (.known id o) size (.bits n))
    (hfind : m.memory.find? id = some a) (hdest : c.dest = some d) (hkind : d.ty.kind = .ok .ptr)
    (hchecked : m.memory.checked d.ptr pointerSize pointerSize = .ok x) :
    (∃ m', callIntrinsic c m = .ok () m') ↔
      0 ≤ o + (n.setWidth 64).toInt * size ∧ o + (n.setWidth 64).toInt * size ≤ a.size := by
  rw [h.callIntrinsic_eq]
  constructor
  · rintro ⟨m', hcall⟩
    obtain ⟨r, m1, hmoved, -⟩ := bind_eq_ok.1 hcall
    obtain ⟨a', hfind', hinside⟩ := (knownOffset_eq_ok.1 hmoved).1 rfl
    cases hfind.symm.trans hfind'
    exact hinside
  · intro hinside
    have hmoved : moved (.known id o) size (.bits n) false m = .ok _ m :=
      knownOffset_eq_ok.2 ⟨fun _ => ⟨a, hfind, hinside⟩, rfl, rfl⟩
    obtain ⟨m', hresult⟩ := result_ptr_of_checked hdest hkind hchecked _
    exact ⟨m', bind_eq_ok.2 ⟨_, _, hmoved, hresult⟩⟩

/-- Calls that move a pointer one after another leave a pointer into the allocation that the first one
points into. Under all values that agree with what the store then records, its offset is the sum of the
first offset and all distances, modulo the size of the address space, whichever of the calls were computed
and which were recorded. A call on a known pointer that must not wrap around succeeds if and only if the
exact offset is in the allocation or right behind. -/
theorem pointer_arithmetic :
    (∀ c m m' wrapping p size count d, IntrinsicCall.OnPointer c m wrapping p size count →
      callIntrinsic c m = .ok () m' → c.dest = some d → d.ty.kind = .ok .ptr →
      ∃ q, c.Moves m m' p size count q) ∧
    (∀ m id o hops m' q, Travels m (.known id o) hops m' q → q.alloc = id ∧
      ∀ v, (∀ d ∈ m'.memory.store.definitions, d.satisfied v) →
        q.offset.word? v .i64 = some (BitVec.ofInt _ (o + distance hops v))) ∧
    ∀ c m id o size n a d x, IntrinsicCall.OnPointer c m false (.known id o) size (.bits n) →
      m.memory.find? id = some a → c.dest = some d → d.ty.kind = .ok .ptr →
      m.memory.checked d.ptr pointerSize pointerSize = .ok x →
      ((∃ m', callIntrinsic c m = .ok () m') ↔
        0 ≤ o + (n.setWidth 64).toInt * size ∧ o + (n.setWidth 64).toInt * size ≤ a.size) := by
  refine ⟨?_, ?_, ?_⟩
  · intro c m m' wrapping p size count d h hcall hdest hkind
    obtain ⟨q, hmoves, -⟩ := h.exists_moves hcall hdest hkind
    exact ⟨q, hmoves⟩
  · intro m id o hops m' q h
    obtain ⟨⟨halloc, hword⟩, -⟩ := h.displaced
    refine ⟨halloc, fun v hv => ?_⟩
    rw [hword v hv _ (Scalar.word?_ofNat v o), BitVec.ofInt_add]
  · intro c m id o size n a d x h hfind hdest hkind hchecked
    exact h.succeeds_iff hfind hdest hkind hchecked

namespace Stroll

/-- The type of a number of four bytes. -/
abbrev number : Ty := .int .w32 false false

/-- Four numbers, and room for a pointer to them. -/
def start : Machine where
  program := ⟨[]⟩
  limits := {}
  memory := {
    limit := 64
    allocs := [(1, Memory.fresh 16 4 .stack), (2, Memory.fresh 8 8 .stack)]
    next := 3
    usage := 24
    store := { segments := [.input 8] } }

/-- A number of elements that is not known. -/
def unknown : Scalar := .cells ((List.range 8).map .symbol)

def call (wrapping : Bool) (p : Pointer) (count : Scalar) : IntrinsicCall where
  intrinsic := .offset wrapping
  callee := "offset"
  args := [⟨.one (.ptr p), .rawPtr number true⟩, ⟨.one count, .int .w64 true true⟩]
  dest := some ⟨.known 2 0, .rawPtr number true, none⟩
  typeArgs := []

theorem onPointer (m : Machine) (wrapping : Bool) (p : Pointer) (count : Scalar) :
    (call wrapping p count).OnPointer m wrapping p 4 count :=
  ⟨rfl, rfl, ⟨number, rfl, rfl⟩, rfl, rfl⟩

def first : IntrinsicCall := call false (.known 1 4) (.bits 2)

def second : IntrinsicCall := call true (.known 1 12) unknown

def middle : Machine := (callIntrinsic first).final start

theorem run_first : callIntrinsic first start = .ok () middle := by rfl

theorem run_second : ∃ m', callIntrinsic second middle = .ok () m' := by
  have hoffset : (Pointer.known 1 12).offset.Fits middle.memory.store .i64 := .bits _
  have hunknown : unknown.Fits middle.memory.store .i64 := .cells rfl (by decide)
  obtain ⟨q, s, hmoved⟩ := symbolicOffset_of_fits hoffset hunknown 4
  have hchecked : (middle.withStore s).memory.checked (.known 2 0) pointerSize pointerSize = .ok _ :=
    rfl
  obtain ⟨m', hresult⟩ := result_ptr_of_checked (c := second) rfl rfl hchecked q
  have hcall := (onPointer middle true (.known 1 12) unknown).callIntrinsic_eq
  exact ⟨m', hcall.trans (bind_eq_ok.2 ⟨_, _, hmoved, hresult⟩)⟩

end Stroll

/-- From the second of four numbers, two elements further and then an unknown number of them. Three
elements further is right behind the numbers, and four elements is too far. -/
theorem pointer_arithmetic_stroll :
    (∃ m' q, callIntrinsic Stroll.first Stroll.start = .ok () Stroll.middle ∧
      callIntrinsic Stroll.second Stroll.middle = .ok () m' ∧
      readScalar (.known 2 0) (.rawPtr Stroll.number true) m' = .ok (.ptr q) m' ∧ q.alloc = 1 ∧
      ∀ v, (∀ d ∈ m'.memory.store.definitions, d.satisfied v) →
        q.offset.word? v .i64 = some (BitVec.ofInt _ (4 + (4 * 2 + 4 * Stroll.unknown.signed v)))) ∧
    (∃ m', callIntrinsic (Stroll.call false (.known 1 4) (.bits 3)) Stroll.start = .ok () m') ∧
    ¬ ∃ m', callIntrinsic (Stroll.call false (.known 1 4) (.bits 4)) Stroll.start = .ok () m' := by
  obtain ⟨hmoves, htravels, hiff⟩ := pointer_arithmetic
  have hinside (n : BitVec 128) := hiff (Stroll.call false (.known 1 4) (.bits n)) Stroll.start 1 4 4 n
    (Memory.fresh 16 4 .stack) _ _ (Stroll.onPointer _ _ _ _) rfl rfl rfl rfl
  refine ⟨?_, (hinside 3).2 (by decide), fun h => absurd ((hinside 4).1 h) (by decide)⟩
  obtain ⟨m', hsecond⟩ := Stroll.run_second
  have hfirst : Stroll.first.Moves Stroll.start Stroll.middle (.known 1 4) 4 (.bits 2) (.known 1 12) :=
    ⟨⟨false, Stroll.onPointer _ _ _ _⟩, Stroll.run_first, _, rfl, rfl, rfl⟩
  obtain ⟨q, hlast⟩ := hmoves _ _ _ _ _ _ _ _ (Stroll.onPointer _ true (.known 1 12) Stroll.unknown)
    hsecond rfl rfl
  have hchain := Travels.call hfirst (fun _ hd => hd) (.call hlast (fun _ hd => hd) (.rest m' q))
  obtain ⟨halloc, hword⟩ := htravels _ 1 4 _ _ q hchain
  obtain ⟨-, -, d, ⟨⟩, -, hread⟩ := hlast
  refine ⟨m', q, Stroll.run_first, hsecond, hread, halloc, fun v hv => ?_⟩
  rw [hword v hv, distance, List.map_cons, List.map_cons, List.map_nil, List.sum_cons, List.sum_cons,
    List.sum_nil, Int.add_zero]
  rfl

end Machine
end SymExec

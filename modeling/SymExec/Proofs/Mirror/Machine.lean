import SymExec.Proofs.Mirror.Memory
import SymExec.Proofs.Mirror.Operator

/-!
# Places, operands and assignments on known and on symbolic bytes

The functions that find places, read operands and carry out assignments do on known bytes what they
do on symbolic ones. A place never depends on symbolic bytes: an index, a length or a pointer that
is symbolic is refused.
-/
namespace SymExec

open Run

variable {kind : Kind} {op : BinOp}

theorem Ty.size_of_kind {t : Ty} {n : Int} (hkind : t.kind = .ok kind) (hsize : t.size = .ok n) :
    n = kind.numBytes := by
  have hpointer : ∀ p : Ty, t.layout = (do return (← p.layout).pointer) →
      t.kind = (do if ← p.isSized then return .ptr else throw (.notPrimitive t)) →
      n = kind.numBytes := by
    intro p hlayout hptr
    unfold size at hsize
    unfold isSized at hptr
    rw [hlayout] at hsize
    rw [hptr] at hkind
    cases hp : p.layout with
    | error e =>
      rw [hp] at hkind
      cases hkind
    | ok l =>
      rw [hp] at hkind hsize
      obtain ⟨size, align⟩ := l
      cases size with
      | none => cases hkind
      | some _ =>
        cases hkind
        cases hsize
        rfl
  cases t with
  | int w signed pointerSized | bool | char | f32 | f64 | fnPtr =>
    cases hkind
    cases hsize
    rfl
  | rawPtr p mutable | ref p mutable => exact hpointer p rfl rfl
  | slice | str | array | tuple | struct => cases hkind

/-- A value that is made of symbolic bytes has as many as its type has. -/
structure Scalar.AgreesAt (v : Valuation) (ty : Ty) (a a' : Scalar) : Prop where
  agrees : a.Agrees v a'
  length : ∀ list kind, a = .cells list → ty.kind = .ok kind → list.length = kind.numBytes

namespace Machine

variable {a a' : Scalar} {m' : Machine} {p : Pointer} {q r r' : PlaceRef}
  {α α' : Type} {ty : Ty} {index : Int} {R : α → α' → Prop}

/-- Machines seen under values of the symbolic bytes. -/
def view (v : Valuation) (s0 : Store) : View Machine :=
  ⟨v, fun m => m.memory.store, Machine.ground v s0⟩

variable {v : Valuation} {s0 : Store} {E : EvalError → Prop} {D : Prop} {m : Machine}

theorem mirrors_onMemory {act : Run Memory α} {act' : Run Memory α'}
    (h : Mirrors (Memory.view v s0) E D R act act' m.memory) :
    Mirrors (view v s0) E D R (onMemory act) (onMemory act') m := by
  intro a m' hok
  unfold onMemory at hok ⊢
  cases hact : act m.memory with
  | error e memory =>
    rw [hact] at hok
    cases hok
  | ok b memory =>
    rw [hact] at hok
    cases hok
    obtain ⟨hstore, hresult, hact'⟩ := h a memory hact
    refine ⟨hstore, hresult, fun hv => ?_⟩
    obtain ⟨a', ha', hok'⟩ | ⟨e, c, he, hE⟩ | hD := hact' hv
    · have hrun : act' (m.ground v s0).memory = .ok a' (memory.ground v s0) := hok'
      refine .inl ⟨a', ha', ?_⟩
      simp only [view, hrun]
      rfl
    · have hrun : act' (m.ground v s0).memory = .error (.error e) c := he
      refine .inr (.inl ⟨e, { m.ground v s0 with memory := c }, ?_, hE⟩)
      simp only [view, hrun]
    · exact .inr (.inr hD)

theorem mirrors_onStore {act : Run Store α} {act' : Run Store α'}
    (h : Mirrors (Store.view v s0) E D R act act' m.memory.store) :
    Mirrors (view v s0) E D R (onStore act) (onStore act') m := by
  refine mirrors_onMemory fun a m' hok => ?_
  unfold Memory.onStore at hok ⊢
  cases hact : act m.memory.store with
  | error e s =>
    rw [hact] at hok
    cases hok
  | ok b s =>
    rw [hact] at hok
    cases hok
    obtain ⟨hstore, hresult, hact'⟩ := h a s hact
    refine ⟨hstore, hresult, fun hv => ?_⟩
    obtain ⟨a', ha', hok'⟩ | ⟨e, c, he, hE⟩ | hD := hact' hv
    · have hrun : act' (m.memory.ground v s0).store = .ok a' s0 := hok'
      refine .inl ⟨a', ha', ?_⟩
      simp only [Memory.view, hrun]
      rfl
    · have hrun : act' (m.memory.ground v s0).store = .error (.error e) c := he
      refine .inr (.inl ⟨e, { m.memory.ground v s0 with store := c }, ?_, hE⟩)
      simp only [Memory.view, hrun]
    · exact .inr (.inr hD)

/-! ## Typed access to memory -/

theorem readScalar_eq_ok :
    readScalar p ty m = .ok a m' ↔ m' = m ∧ ∃ size kind align, ty.size = .ok size ∧
      ty.kind = .ok kind ∧ ty.align = .ok align ∧ m.memory.readScalar p size kind align = .ok a := by
  constructor
  · intro h
    obtain ⟨size, hsize, h⟩ := liftBind_eq_ok.1 h
    obtain ⟨kind, hkind, h⟩ := liftBind_eq_ok.1 h
    obtain ⟨align, halign, h⟩ := liftBind_eq_ok.1 h
    obtain ⟨hread, rfl⟩ := of_eq_ok.1 h
    exact ⟨rfl, size, kind, align, hsize, hkind, halign, lift_eq_ok.1 hread⟩
  · rintro ⟨rfl, size, kind, align, hsize, hkind, halign, hread⟩
    unfold readScalar
    rw [hsize, hkind, halign]
    change (liftM (m'.memory.readScalar p size kind align) : Run Machine Scalar) m' = _
    rw [hread]
    rfl

theorem readScalar_agrees (h : readScalar p ty m = .ok a m') :
    ∃ a', Scalar.AgreesAt v ty a a' ∧
      readScalar (p.ground v) ty (m.ground v s0) = .ok a' (m.ground v s0) := by
  obtain ⟨rfl, size, kind, align, hsize, hkind, halign, hread⟩ := readScalar_eq_ok.1 h
  obtain ⟨hlength, a', hagrees, hread'⟩ :=
    Memory.readScalar_agrees (v := v) (Ty.size_of_kind hkind hsize) hread
  refine ⟨a', ⟨hagrees, fun list kind' hlist hkind' => ?_⟩,
    readScalar_eq_ok.2 ⟨rfl, size, kind, align, hsize, hkind, halign, hread'⟩⟩
  obtain rfl : kind = kind' := Except.ok.inj (hkind.symm.trans hkind')
  exact hlength list hlist

theorem mirrors_read (p : Pointer) (ty : Ty) :
    Mirrors (view v s0) E D
      (fun a a' => Scalar.AgreesAt v ty a a' ∧
        readScalar (p.ground v) ty (m.ground v s0) = .ok a' (m.ground v s0))
      (readScalar p ty) (readScalar (p.ground v) ty) m := by
  intro a m' h
  obtain ⟨rfl, -⟩ := readScalar_eq_ok.1 h
  obtain ⟨a', hagrees, hread⟩ := readScalar_agrees h
  exact ⟨Store.develops_composes.refl _, ⟨a', hagrees, hread⟩,
    fun _ => .inl ⟨a', ⟨hagrees, hread⟩, hread⟩⟩

theorem mirrors_readScalar (p : Pointer) (ty : Ty) :
    Mirrors (view v s0) E D (Scalar.AgreesAt v ty) (readScalar p ty) (readScalar (p.ground v) ty) m :=
  (mirrors_read p ty).mono fun _ _ => And.left

theorem mirrors_writeScalar (p : Pointer) (ha : a.Agrees v a') (ty : Ty) (aligned : Bool) :
    Shadows (view v s0) E D (writeScalar p a ty aligned)
      (writeScalar (p.ground v) a' ty aligned) m := by
  refine .sameBind fun size _ => ?_
  cases aligned with
  | true => exact .sameBind fun align _ => mirrors_onMemory (Memory.mirrors_writeScalar p ha size align)
  | false => exact mirrors_onMemory (Memory.mirrors_writeScalar p ha size 1)

theorem offsetBy_ground {q : Pointer} {delta : Int} (h : p.offsetBy delta = .ok q) :
    (p.ground v).offsetBy delta = .ok (q.ground v) := by
  cases p with
  | symbolic => cases h
  | known a o =>
    cases h
    rfl

theorem mirrors_offsetBy (p : Pointer) (delta : Int) :
    Mirrors (view v s0) E D (fun q q' => q' = q.ground v) (liftM (p.offsetBy delta) : Run Machine _)
      (liftM ((p.ground v).offsetBy delta)) m :=
  .lift_of_ok fun _ hq => ⟨_, rfl, offsetBy_ground hq⟩

theorem mirrors_readMemory (p : Pointer) {size : Int} (align : Int) (hsize : size = kind.numBytes) :
    Mirrors (view v s0) E D (Scalar.Agrees v)
      (liftM (m.memory.readScalar p size kind align) : Run Machine Scalar)
      (liftM ((m.ground v s0).memory.readScalar (p.ground v) size kind align)) m :=
  .lift_of_ok fun _ ha => (Memory.readScalar_agrees hsize ha).2

theorem mirrors_readPair (p : Pointer) (ty : Ty) :
    Mirrors (view v s0) E D (Operator.PairAgrees v) (readPair p ty) (readPair (p.ground v) ty) m := by
  refine .sameBind fun fat _ => ?_
  cases fat with
  | true =>
    refine .stateBind (.bind (mirrors_readMemory p _ rfl) fun a a' _ _ ha => .stateBind ?_)
    refine .bindOf (mirrors_offsetBy p _) fun q m1 hm1 => ?_
    obtain ⟨-, rfl⟩ := of_eq_ok.1 hm1
    exact .bind (mirrors_readMemory q _ rfl) fun b b' _ _ hb => .pure ⟨ha, hb⟩
  | false =>
    refine .sameBind fun fields _ => ?_
    refine .bindOf (mirrors_offsetBy p _) fun q _ _ => ?_
    refine .bind (mirrors_readScalar q _) fun a a' _ _ ha => ?_
    refine .bindOf (mirrors_offsetBy p _) fun r _ _ => ?_
    exact .bind (mirrors_readScalar r _) fun b b' _ _ hb => .pure ⟨ha.agrees, hb.agrees⟩

theorem mirrors_writePair (p : Pointer) {b b' : Scalar} (ha : a.Agrees v a') (hb : b.Agrees v b')
    (ty : Ty) (aligned : Bool) : Shadows (view v s0) E D (writePair p a b ty aligned)
      (writePair (p.ground v) a' b' ty aligned) m := by
  refine .sameBind fun fat _ => ?_
  cases fat with
  | true =>
    refine .bind (mirrors_onMemory (Memory.mirrors_writeScalar p ha _ _)) fun _ _ _ _ _ => ?_
    refine .bindOf (mirrors_offsetBy p _) fun q _ _ => ?_
    exact mirrors_onMemory (Memory.mirrors_writeScalar q hb _ _)
  | false =>
    refine .sameBind fun fields _ => ?_
    refine .bindOf (mirrors_offsetBy p _) fun q _ _ => ?_
    refine .bind (mirrors_writeScalar q ha _ aligned) fun _ _ _ _ _ => ?_
    refine .bindOf (mirrors_offsetBy p _) fun r _ _ => ?_
    exact mirrors_writeScalar r hb _ aligned

theorem mirrors_writeValue (p : Pointer) {a a' : Value} (ha : a.Agrees v a') (ty : Ty)
    (aligned : Bool) : Shadows (view v s0) E D (writeValue p a ty aligned)
      (writeValue (p.ground v) a' ty aligned) m := by
  refine .sameBind fun size _ => ?_
  cases ha with
  | inMemory source =>
    cases aligned with
    | true => exact .sameBind fun align _ => mirrors_onMemory (Memory.mirrors_copyBytes source p _ _)
    | false => exact mirrors_onMemory (Memory.mirrors_copyBytes source p _ _)
  | pair ha hb =>
    by_cases hsize : size ≠ 0
    · simp only [if_pos hsize]
      exact mirrors_writePair p ha hb ty aligned
    · simp only [if_neg hsize]
      exact .pure trivial
  | one ha =>
    by_cases hsize : size ≠ 0
    · simp only [if_pos hsize]
      exact mirrors_writeScalar p ha ty aligned
    · simp only [if_neg hsize]
      exact .pure trivial

theorem mirrors_readArg {a a' : Arg} (ha : a.Agrees v a') :
    Mirrors (view v s0) E D (Scalar.AgreesAt v a.ty) (readArg a) (readArg a') m := by
  obtain ⟨ty, hvalue, hlength⟩ := ha
  cases hvalue with
  | one h => exact .pure ⟨h, fun list kind hlist => hlength list kind (congrArg Value.one hlist)⟩
  | pair => exact .fail _
  | inMemory p => exact mirrors_readScalar p _

/-! ## Places -/

theorem localAt_ground {f : Frame} (h : localAt f index = .ok (p, ty)) :
    localAt (f.ground v) index = .ok (p.ground v, ty) := by
  unfold localAt at h ⊢
  have hlocals : Section.item? (f.ground v).locals index
      = (Section.item? f.locals index).map (Pointer.ground v) := Section.map_item? _ _ _
  rw [hlocals]
  split at h
  · rename_i q ty' hq hty
    split at h
    · rename_i hindex
      cases h
      have hty' : Section.item? (f.ground v).function.locals index = some ty := hty
      simp only [hq, hty', Option.map_some, if_pos hindex]
    · cases h
  · cases h

theorem knownLength_agrees {length length' : Option Scalar} {n : Nat}
    (hl : Option.Rel (Scalar.Agrees v) length length') (h : knownLength length = .ok n) :
    knownLength length' = .ok n := by
  cases hl with
  | none => cases h
  | some ha =>
    cases ha with
    | bits => exact h
    | ptr | undef | cells => cases h

def elementOf (p : Pointer) (elem : Ty) (length index : Int) : Except EvalError PlaceRef := do
  if length ≤ index then throw (.indexOutside length index)
  return ⟨← p.offsetBy (index * (← elem.size)), elem, none⟩

theorem elementOf_agrees {elem : Ty} {length : Int} (h : elementOf p elem length index = .ok q) :
    ∃ q', q.Agrees v q' ∧ elementOf (p.ground v) elem length index = .ok q' := by
  unfold elementOf at h ⊢
  by_cases hindex : length ≤ index
  · rw [if_pos hindex] at h
    cases h
  · rw [if_neg hindex] at h ⊢
    obtain ⟨size, hsize, h⟩ := bind_iff.1 h
    obtain ⟨r, hr, ⟨⟩⟩ := bind_iff.1 h
    refine ⟨_, .intro r elem .none, ?_⟩
    exact bind_iff.2 ⟨size, hsize, bind_iff.2 ⟨_, offsetBy_ground hr, rfl⟩⟩

theorem element_agrees (hr : r.Agrees v r') (h : element r index = .ok q) :
    ∃ q', q.Agrees v q' ∧ element r' index = .ok q' := by
  obtain ⟨p, ty, hlength⟩ := hr
  cases ty with
  | array elem n =>
    have helement : elementOf p elem n index = .ok q := h
    exact elementOf_agrees helement
  | slice elem =>
    obtain ⟨n, hn, h⟩ := bind_iff.1 h
    obtain ⟨q', hq', hok⟩ := elementOf_agrees h
    exact ⟨q', hq', bind_iff.2 ⟨n, knownLength_agrees hlength hn, hok⟩⟩
  | _ => cases h

theorem fieldOf_agrees (hr : r.Agrees v r') (h : fieldOf r index = .ok q) :
    ∃ q', q.Agrees v q' ∧ fieldOf r' index = .ok q' := by
  obtain ⟨p, ty, hlength⟩ := hr
  unfold fieldOf at h ⊢
  simp only at h ⊢
  split at h
  · cases h
  · rename_i fields hfields
    by_cases hindex : fields.length ≤ index
    · rw [if_pos hindex] at h
      cases h
    · rw [if_neg hindex] at h ⊢
      obtain ⟨offsets, hoffsets, h⟩ := bind_iff.1 h
      split at h
      · rename_i offset ty hoffset hty
        obtain ⟨q, hq, ⟨⟩⟩ := bind_iff.1 h
        refine ⟨_, .intro q ty hlength, bind_iff.2 ⟨offsets, hoffsets, ?_⟩⟩
        simp only [hoffset, hty]
        refine bind_iff.2 ⟨_, ?_, rfl⟩
        exact lift_eq_ok.2 (offsetBy_ground (lift_eq_ok.1 hq))
      · cases h

theorem toPtr_agrees (ha : a.Agrees v a') (h : a.toPtr = .ok p) : a'.toPtr = .ok (p.ground v) := by
  cases ha with
  | ptr =>
    cases h
    rfl
  | bits | undef | cells => cases h

theorem mirrors_toPtr (ha : a.Agrees v a') :
    Mirrors (view v s0) E D (fun q q' => q' = q.ground v) (liftM a.toPtr : Run Machine _)
      (liftM a'.toPtr) m :=
  .lift_of_ok fun _ hp => ⟨_, rfl, toPtr_agrees ha hp⟩

theorem mirrors_deref (hr : r.Agrees v r') :
    Mirrors (view v s0) E D (PlaceRef.Agrees v) (deref r) (deref r') m := by
  obtain ⟨ptr, ty, -⟩ := hr
  refine .sameBind fun pointee _ => .sameBind fun fat _ => ?_
  cases fat with
  | true =>
    refine .bind (mirrors_readPair ptr _) fun x x' _ _ hx => ?_
    refine .bindOf (mirrors_toPtr hx.1) fun p _ _ => .pure ?_
    exact .intro p _ (.some hx.2)
  | false =>
    refine .bind (mirrors_readScalar ptr _) fun a a' _ _ ha => ?_
    refine .bindOf (mirrors_toPtr ha.agrees) fun p _ _ => .pure ?_
    exact .intro p _ .none

theorem mirrors_project (f : Frame) (hr : r.Agrees v r') (step : Projection) :
    Mirrors (view v s0) E D (PlaceRef.Agrees v) (project f r step) (project (f.ground v) r' step)
      m := by
  cases step with
  | deref => exact mirrors_deref hr
  | field i =>
    refine .lift fun q hq => ?_
    obtain ⟨q', hq', hok⟩ := fieldOf_agrees hr hq
    exact ⟨⟨q', hq'⟩, .inl ⟨q', hq', hok⟩⟩
  | constIndex i => exact .lift_of_ok fun q hq => element_agrees hr hq
  | index base =>
    refine .bind (R := fun x x' => x' = (x.1.ground v, x.2))
      (.lift_of_ok fun x hx => ⟨_, rfl, localAt_ground hx⟩) fun x x' _ _ hx => ?_
    obtain rfl := hx
    refine .bind (mirrors_readScalar x.1 _) fun a a' _ _ ha => ?_
    cases ha.agrees with
    | bits => exact .sameBind fun n _ => .lift_of_ok fun q hq => element_agrees hr hq
    | cells => exact .fail _
    | ptr | undef => exact .of_error rfl

theorem mirrors_frame :
    Mirrors (view v s0) E D (fun f f' => f' = f.ground v) frame frame m := by
  unfold frame
  refine .stateBind ?_
  obtain ⟨program, limits, memory, stack, steps, pending⟩ := m
  cases stack with
  | nil => exact .throw _
  | cons f rest => exact .pure rfl

theorem mirrors_evalPlace (place : Place) :
    Mirrors (view v s0) E D (PlaceRef.Agrees v) (evalPlace place) (evalPlace place) m := by
  refine .bindOf mirrors_frame fun f _ _ => ?_
  refine .bind (R := fun x x' => x' = (x.1.ground v, x.2))
    (.lift_of_ok fun x hx => ⟨_, rfl, localAt_ground hx⟩) fun x x' m1 _ hx => ?_
  obtain rfl := hx
  exact .foldlM _ (.intro _ _ .none) (fun a a' step m ha => mirrors_project f ha step) m1

/-! ## Operands -/

theorem mirrors_evalConstant (value : Json) (ty : Ty) :
    Mirrors (view v s0) E D (fun a a' => a.Agrees v a' ∧ ∀ list, a ≠ .one (.cells list))
      (evalConstant value ty) (evalConstant value ty) m := by
  unfold evalConstant
  split
  · refine .sameFailureBind fun bytes _ => ?_
    refine .bind (mirrors_onMemory (Memory.mirrors_allocateStatic _)) fun p p' _ _ hp => .pure ?_
    obtain ⟨id, rfl, rfl⟩ := hp
    exact ⟨.pair (.ptr (.known id 0)) (.ofNat _), nofun⟩
  · split
    · exact .pure ⟨.one (.ofBool _), nofun⟩
    · split
      · exact .pure ⟨.one (.ofNat _), nofun⟩
      · exact .throw _
    · exact .sameFailureBind fun n _ => .pure ⟨.one (.ofInt n), nofun⟩
    · exact .sameFailureBind fun n _ => .pure ⟨.one (.ofBits n _), nofun⟩
    · exact .sameFailureBind fun n _ => .pure ⟨.one (.ofDouble n _), nofun⟩
    · exact .sameFailureBind fun n _ => .pure ⟨.one (.ofDouble n _), nofun⟩
    · exact .pure ⟨.one (.ofInt _), nofun⟩
    · exact .pure ⟨.one (.ofBool _), nofun⟩
    · refine .sameBind fun layout _ => ?_
      split
      · exact .pure ⟨.one .undef, nofun⟩
      · exact .fail _

theorem mirrors_evalOperand (operand : Operand) :
    Mirrors (view v s0) E D (Arg.Agrees v) (evalOperand operand) (evalOperand operand) m := by
  cases operand with
  | constant value ty =>
    refine .bind (mirrors_evalConstant value ty) fun a a' _ _ ha => .pure (.intro ty ha.1 ?_)
    exact fun list kind hlist => absurd hlist (ha.2 list)
  | copy place =>
    refine .bind (mirrors_evalPlace place) fun r r' _ _ hr => ?_
    obtain ⟨p, ty, -⟩ := hr
    refine .sameBind fun fat _ => ?_
    cases fat with
    | true =>
      refine .bind (mirrors_readPair p ty) fun x x' _ _ hx => .pure ?_
      exact .intro ty (.pair hx.1 hx.2) nofun
    | false =>
      refine .sameBind fun primitive _ => ?_
      cases primitive with
      | true =>
        refine .bind (mirrors_readScalar p ty) fun a a' _ _ ha => .pure (.intro ty (.one ha.agrees) ?_)
        exact fun list kind hlist => ha.length list kind (Value.one.inj hlist)
      | false => exact .pure (.intro ty (.inMemory p) nofun)

/-! ## Casts -/

theorem mirrors_castValue {b b' : Scalar} {source dest : Ty} (p : Pointer)
    (hcast : Mirrors (Store.view v s0) E D (Scalar.Agrees v) (Cast.cast b source dest)
      (Cast.cast b' source dest) m.memory.store) :
    Shadows (view v s0) E D
      (do
        let c ← castValue b source dest
        writeScalar p c dest true)
      (do
        let c ← castValue b' source dest
        writeScalar (p.ground v) c dest true) m := by
  unfold castValue
  split
  · exact .of_error rfl
  · exact .bind (mirrors_onStore hcast) fun c c' _ _ hc => mirrors_writeScalar p hc dest true

theorem mirrors_castPtr (ha : a.Agrees v a') (p : Pointer) (dest : Ty) (hE : ∀ n, E (.invalidChar n)) :
    Shadows (view v s0) E D
      (do
        let b ← castValue a (.rawPtr .u8 false) dest
        writeScalar p b dest true)
      (do
        let b ← castValue a' (.rawPtr .u8 false) dest
        writeScalar (p.ground v) b dest true) m :=
  mirrors_castValue p
    (Cast.mirrors_cast ha (by rintro (h | h) <;> cases h) hE (by rintro _ _ ⟨⟩))

/-- A cast of a symbolic truth value that is neither zero nor one is excepted. -/
theorem mirrors_castTo {a a' : Arg} (hr : r.Agrees v r') (ha : a.Agrees v a')
    (hE : ∀ n, E (.invalidChar n))
    (hD : ∀ list m1, readArg a m = .ok (.cells list) m1 → a.ty.category = .bool → 1 < Cell.valueOf v list → D) :
    Shadows (view v s0) E D (castTo r a) (castTo r' a') m := by
  obtain ⟨p, dest, -⟩ := hr
  have harg := ha
  obtain ⟨source, hvalue, -⟩ := ha
  refine .sameBind fun fat _ => ?_
  cases fat with
  | true =>
    refine .sameBind fun fat' _ => ?_
    cases fat' with
    | true => exact mirrors_writeValue p hvalue dest true
    | false =>
      refine .sameBind fun pointee _ => ?_
      cases pointee with
      | array elem n =>
        exact .bind (mirrors_readArg harg) fun b b' _ _ hb =>
          mirrors_writePair p hb.agrees (.ofInt n) dest true
      | _ => exact .fail _
  | false =>
    refine .sameBind fun fat' _ => ?_
    cases fat' with
    | true =>
      cases hvalue with
      | one => exact .of_error rfl
      | pair ha hb => exact mirrors_castPtr ha p dest hE
      | inMemory q =>
        exact .bind (mirrors_readPair q source) fun x x' _ _ hx => mirrors_castPtr hx.1 p dest hE
    | false =>
      refine .bind (mirrors_readArg harg) fun b b' m1 hm1 hb => ?_
      refine mirrors_castValue p ?_
      refine Cast.mirrors_cast hb.agrees (fun _ => hb.length) hE fun list hlist hs hlt => ?_
      subst hlist
      exact hD list m1 hm1 hs hlt

theorem shiftKind_agrees {a a' : Arg} (ha : a.Agrees v a') : shiftKind op a' = shiftKind op a := by
  obtain ⟨ty, -, -⟩ := ha
  rfl

theorem eq_none_of_shiftKind {a : Arg} {rhsKind : Option Kind} (h : shiftKind op a = .ok rhsKind)
    (hshift : op.isShift = false) : rhsKind = none := by
  unfold shiftKind at h
  rw [hshift] at h
  cases h
  rfl

/-! ## What only reads -/

def Unchanged (m m' : Machine) : Prop := m' = m

theorem unchanged_composes : Composes Unchanged := ⟨fun _ => rfl, fun h h' => h'.trans h⟩

attribute [grind .] unchanged_composes

@[grind ←] theorem keeps_readScalar (p : Pointer) (ty : Ty) : Keeps Unchanged (readScalar p ty) := by
  unfold readScalar
  grind

@[grind ←] theorem keeps_readPair (p : Pointer) (ty : Ty) : Keeps Unchanged (readPair p ty) := by
  unfold readPair
  grind

@[grind ←] theorem keeps_project (f : Frame) (ref : PlaceRef) (step : Projection) :
    Keeps Unchanged (project f ref step) := by
  unfold project deref
  grind

theorem keeps_evalPlace (place : Place) : Keeps Unchanged (evalPlace place) := by
  unfold evalPlace frame
  grind

theorem keeps_readArg (a : Arg) : Keeps Unchanged (readArg a) := by
  unfold readArg
  grind

theorem eq_of_evalPlace {place : Place} (h : evalPlace place m = .ok r m') : m' = m := by
  rw [← final_of_ok h]
  exact keeps_evalPlace place m

end Machine

/-! ## Assignments -/

/-- The errors that an assignment can have on known bytes alone. -/
def Rvalue.Omits : Rvalue → EvalError → Prop
  | binary op _ _, e => (op = .div ∨ op = .rem) ∧ e = .divisionByZero
  | cast _ _, e => ∃ n, e = .invalidChar n
  | _, _ => False

/-- A symbolic truth value is cast that under `v` is neither zero nor one. -/
def Rvalue.CastsTruth (v : Valuation) (m : Machine) : Rvalue → Prop
  | cast operand _ => ∃ arg list m1 m2, Machine.evalOperand operand m = .ok arg m1 ∧
      arg.ty.category = .bool ∧ Machine.readArg arg m1 = .ok (.cells list) m2 ∧
      1 < Cell.valueOf v list
  | _ => False

namespace Machine

variable {v : Valuation} {s0 : Store} {E : EvalError → Prop} {D : Prop} {m : Machine}

/-- Goes on with the values, the kind and the kind of shift amount of two operands. -/
def withOperands (op : BinOp) (lhs rhs : Operand)
    (k : Scalar → Scalar → Kind → Option Kind → Run Machine Unit) : Run Machine Unit := do
  let lhs ← evalOperand lhs
  let rhs ← evalOperand rhs
  let rhsKind ← shiftKind op rhs
  let a ← readArg lhs
  let b ← readArg rhs
  let kind ← lhs.ty.kind
  k a b kind rhsKind

theorem mirrors_operands (lhs rhs : Operand)
    {k k' : Scalar → Scalar → Kind → Option Kind → Run Machine Unit}
    (hk : ∀ a a' b b' kind rhsKind m1, Scalar.Agrees v a a' → Scalar.Agrees v b b' →
      (op.isShift = false → rhsKind = none) →
      Shadows (view v s0) E D (k a b kind rhsKind) (k' a' b' kind rhsKind) m1) :
    Shadows (view v s0) E D (withOperands op lhs rhs k)
      (withOperands op lhs rhs k') m := by
  refine .bind (mirrors_evalOperand lhs) fun x x' _ _ hx => ?_
  refine .bind (mirrors_evalOperand rhs) fun y y' _ _ hy => ?_
  rw [shiftKind_agrees hy]
  refine .sameBind fun rhsKind hrhsKind => ?_
  refine .bind (mirrors_readArg hx) fun a a' _ _ ha => ?_
  refine .bind (mirrors_readArg hy) fun b b' _ _ hb => ?_
  obtain ⟨ty, -, -⟩ := hx
  exact .sameBind fun kind _ =>
    hk a a' b b' kind rhsKind _ ha.agrees hb.agrees (eq_none_of_shiftKind hrhsKind)

theorem mirrors_assign (place : Place) (rvalue : Rvalue) (hE : ∀ e, rvalue.Omits e → E e)
    (hD : rvalue.CastsTruth v m → D) :
    Shadows (view v s0) E D (assign place rvalue) (assign place rvalue) m := by
  refine .bind (mirrors_evalPlace place) fun r r' m1 hm1 hr => ?_
  obtain rfl := eq_of_evalPlace hm1
  have hdest := hr
  obtain ⟨p, ty, hlength⟩ := hr
  cases rvalue with
  | use operand =>
    refine .bind (mirrors_evalOperand operand) fun a a' _ _ ha => ?_
    obtain ⟨_, hvalue, -⟩ := ha
    exact mirrors_writeValue p hvalue ty true
  | binary op lhs rhs =>
    change Mirrors _ E D _
      (withOperands op lhs rhs fun a b kind rhsKind => do
        let c ← onStore (Operator.binary op a b kind rhsKind)
        writeScalar p c ty true)
      (withOperands op lhs rhs fun a b kind rhsKind => do
        let c ← onStore (Operator.binary op a b kind rhsKind)
        writeScalar (p.ground v) c ty true) _
    refine mirrors_operands lhs rhs fun a a' b b' kind rhsKind _ ha hb hkind => ?_
    refine .bind (mirrors_onStore (Operator.mirrors_binary ha hb hkind fun h => hE _ ⟨h, rfl⟩)) ?_
    exact fun c c' _ _ hc => mirrors_writeScalar p hc ty true
  | checked op lhs rhs =>
    change Mirrors _ E D _
      (withOperands op lhs rhs fun a b kind rhsKind => do
        let c ← onStore (Operator.overflowing op a b kind rhsKind)
        writePair p c.1 c.2 ty true)
      (withOperands op lhs rhs fun a b kind rhsKind => do
        let c ← onStore (Operator.overflowing op a b kind rhsKind)
        writePair (p.ground v) c.1 c.2 ty true) _
    refine mirrors_operands lhs rhs fun a a' b b' kind rhsKind _ ha hb hkind => ?_
    exact .bind (mirrors_onStore (Operator.mirrors_overflowing ha hb hkind)) fun c c' _ _ hc =>
      mirrors_writePair p hc.1 hc.2 ty true
  | unary op operand =>
    refine .bind (mirrors_evalOperand operand) fun x x' _ _ hx => ?_
    refine .bind (mirrors_readArg hx) fun a a' _ _ ha => ?_
    obtain ⟨argTy, -, -⟩ := hx
    refine .sameBind fun kind _ => ?_
    exact .bind (mirrors_onStore (Operator.mirrors_unary ha.agrees)) fun c c' _ _ hc =>
      mirrors_writeScalar p hc ty true
  | cast operand _ =>
    refine .bind (mirrors_evalOperand operand) fun a a' m2 hm2 ha => ?_
    refine mirrors_castTo hdest ha (fun n => hE _ ⟨n, rfl⟩) fun list m3 hlist hbool hlt => ?_
    exact hD ⟨a, list, m2, m3, hm2, hbool, hlist, hlt⟩
  | ref place _ =>
    refine .bind (mirrors_evalPlace place) fun r r' _ _ hr => ?_
    obtain ⟨q, target, htarget⟩ := hr
    refine .sameBind fun sized _ => ?_
    cases sized with
    | true => exact mirrors_writeScalar p (.ptr q) ty true
    | false =>
      cases htarget with
      | none => exact .of_error rfl
      | some h => exact mirrors_writePair p (.ptr q) h ty true
  | len place =>
    refine .bind (mirrors_evalPlace place) fun r r' _ _ hr => ?_
    obtain ⟨q, target, htarget⟩ := hr
    cases target with
    | array elem n => exact mirrors_writeScalar p (.ofInt n) ty true
    | slice elem | str =>
      cases htarget with
      | none => exact .fail _
      | some h => exact mirrors_writeScalar p h ty true
    | _ => exact .fail _

end Machine
end SymExec

import SymExec.Proofs.Mirror.Machine

/-!
# Intrinsics on known and on symbolic bytes

An intrinsic does on known bytes what it does on symbolic ones, with these exceptions: a known
divisor or an operand of the variants for nonzero operands must not be zero, a pointer that is moved
by a known distance has to stay in its allocation, an assumption has to be zero or one, and an
exchange that fails on known bytes writes nothing, where one on symbolic bytes writes the old bytes
back and marks them defined.
-/
namespace SymExec

open Run BitVec Scalar Memory Store

/-- The errors that an intrinsic can have on known bytes alone. -/
def Intrinsic.Omits : Intrinsic → EvalError → Prop
  | exactDiv, e | fastDiv, e | fastRem, e => e = .divisionByZero
  | leadingZeros true, e | trailingZeros true, e => ∃ callee, e = .zeroOperand callee
  | offset false, e => e = .offsetOutside ∨ ∃ id, e = .dead id
  | assume, e => ∃ n, e = .invalidBool n
  | _, _ => False

namespace Machine

variable {kind : Kind} {s : Store} {a : Scalar} {m' : Machine} {list : List Cell} {p q : BitVec 128}
  {α : Type} {ty : Ty} {i : Nat} {b : Bool} {s' : Store}
  {a' count new new' old old' : Scalar} {fn : FloatFn} {r : BitVec 128} {args args' : List Scalar}
  {t : Term Kind.i64.bits}

/-- Calls of one intrinsic whose arguments and destinations are related by `v`. -/
inductive IntrinsicCall.Agrees (v : Valuation) : IntrinsicCall → IntrinsicCall → Prop where
  | intro (intrinsic : Intrinsic) (callee : String) {args args' : List Arg}
    {dest dest' : Option PlaceRef} (typeArgs : List Ty)
    (hargs : List.Forall₂ (Arg.Agrees v) args args')
    (hdest : Option.Rel (PlaceRef.Agrees v) dest dest') :
    Agrees v ⟨intrinsic, callee, args, dest, typeArgs⟩ ⟨intrinsic, callee, args', dest', typeArgs⟩

variable {v : Valuation} {s0 : Store} {E : EvalError → Prop} {D : Prop} {m : Machine}
  {c c' : IntrinsicCall}

/-! ## Arguments and results -/

theorem forall₂_getElem? {β : Type} {R : α → β → Prop} {xs : List α} {ys : List β}
    (h : List.Forall₂ R xs ys) (i : Nat) : Option.Rel R xs[i]? ys[i]? := by
  induction h generalizing i with
  | nil => exact .none
  | cons hx _ ih =>
    cases i with
    | zero => exact .some hx
    | succ i => exact ih i

section

variable (hc : c.Agrees v c')
include hc

theorem arg_agrees (i : Nat) {a : Arg} (h : c.arg i = .ok a) :
    ∃ a', a.Agrees v a' ∧ c'.arg i = .ok a' := by
  obtain @⟨_, _, args, args', _, _, _, hargs, -⟩ := hc
  have hi := forall₂_getElem? hargs i
  unfold IntrinsicCall.arg at h ⊢
  generalize args[i]? = x at hi h
  generalize args'[i]? = y at hi ⊢
  cases hi with
  | none => cases h
  | some ha =>
    cases h
    exact ⟨_, ha, rfl⟩

theorem mirrors_arg (i : Nat) :
    Mirrors (view v s0) E D (Arg.Agrees v) (liftM (c.arg i) : Run Machine _) (liftM (c'.arg i)) m :=
  .lift fun _ ha =>
    ⟨(arg_agrees hc i ha).imp fun _ => And.left, .inl (arg_agrees hc i ha)⟩

theorem mirrors_prim (i : Nat) :
    Mirrors (view v s0) E D (Scalar.Agrees v) (c.prim i) (c'.prim i) m :=
  .bind (mirrors_arg hc i) fun _ _ _ _ ha => (mirrors_readArg ha).mono fun _ _ h => h.agrees

/-- A symbolic argument has as many bytes as its type has. -/
theorem mirrors_primAt {a : Arg} (ha : c.arg i = .ok a) :
    Mirrors (view v s0) E D (Scalar.AgreesAt v a.ty) (c.prim i) (c'.prim i) m := by
  obtain ⟨a', hagrees, ha'⟩ := arg_agrees hc i ha
  unfold IntrinsicCall.prim
  rw [ha, ha']
  exact mirrors_readArg hagrees

theorem mirrors_pointer (i : Nat) :
    Mirrors (view v s0) E D (fun p p' => p' = p.ground v) (c.pointer i) (c'.pointer i) m :=
  .bind (mirrors_prim hc i) fun _ _ _ _ ha => mirrors_toPtr ha

theorem mirrors_count (i : Nat) :
    Mirrors (view v s0) E D (fun n n' => n' = n) (c.count i) (c'.count i) m := by
  refine .bind (mirrors_prim hc i) fun a a' _ _ ha => ?_
  cases ha with
  | bits p => exact .pure rfl
  | ptr | undef => exact .of_error rfl
  | cells => exact .fail _

theorem mirrors_result (ha : a.Agrees v a') :
    Shadows (view v s0) E D (c.result a) (c'.result a') m := by
  obtain ⟨_, _, _, -, hdest⟩ := hc
  cases hdest with
  | none => exact .pure trivial
  | some hd =>
    obtain ⟨p, ty, -⟩ := hd
    exact mirrors_writeScalar p ha ty true

theorem mirrors_resultPair {b b' : Scalar} (ha : a.Agrees v a') (hb : b.Agrees v b') :
    Shadows (view v s0) E D (c.resultPair a b) (c'.resultPair a' b') m := by
  obtain ⟨_, _, _, -, hdest⟩ := hc
  cases hdest with
  | none => exact .pure trivial
  | some hd =>
    obtain ⟨p, ty, -⟩ := hd
    exact mirrors_writePair p ha hb ty true

theorem mirrors_resultUsize (n : Int) :
    Shadows (view v s0) E D (c.resultUsize n) (c'.resultUsize n) m :=
  mirrors_result hc (.ofNat _)

theorem kind_agrees : c'.kind = c.kind := by
  obtain ⟨_, _, _, hargs, -⟩ := hc
  cases hargs with
  | nil => rfl
  | cons ha =>
    obtain ⟨ty, -, -⟩ := ha
    rfl

theorem elemType_agrees : c'.elemType = c.elemType := by
  obtain ⟨_, _, typeArgs, hargs, -⟩ := hc
  cases typeArgs with
  | cons => rfl
  | nil =>
    cases hargs with
    | nil => rfl
    | cons ha =>
      obtain ⟨ty, -, -⟩ := ha
      rfl

theorem typeArg_agrees (i : Nat) : c'.typeArg i = c.typeArg i := by
  obtain ⟨_, _, _, -, -⟩ := hc
  rfl

/-! ## Arithmetic -/

theorem mirrors_overflowArith (op : OverflowOp) :
    Mirrors (view v s0) E D (Operator.PairAgrees v) (overflowArith c op) (overflowArith c' op) m := by
  unfold overflowArith
  rw [kind_agrees hc]
  refine .sameFailureBind fun kind _ => ?_
  refine .bind (mirrors_prim hc 0) fun a a' _ _ ha => .bind (mirrors_prim hc 1) fun b b' _ _ hb => ?_
  exact mirrors_onStore (Operator.mirrors_overflowing ha hb fun _ => rfl)

theorem mirrors_arith (op : BinOp) (hE : op = .div ∨ op = .rem → E .divisionByZero) :
    Shadows (view v s0) E D (arith c op) (arith c' op) m := by
  unfold arith
  rw [kind_agrees hc]
  refine .sameFailureBind fun kind _ => ?_
  refine .bind (mirrors_prim hc 0) fun a a' _ _ ha => .bind (mirrors_prim hc 1) fun b b' _ _ hb => ?_
  exact .bind (mirrors_onStore (Operator.mirrors_binary ha hb (fun _ => rfl) hE)) fun r r' _ _ hr =>
    mirrors_result hc hr

theorem mirrors_countBits (way : BitCount) (nonzero : Bool)
    (hE : nonzero = true → ∀ callee, E (.zeroOperand callee)) :
    Shadows (view v s0) E D (countBits c way nonzero) (countBits c' way nonzero)
      m := by
  unfold countBits
  rw [kind_agrees hc]
  refine .sameFailureBind fun kind _ => .bind (mirrors_prim hc 0) fun a a' _ _ ha => ?_
  have hagrees := ha
  cases ha with
  | undef => exact mirrors_result hc .undef
  | ptr => exact .of_error rfl
  | bits p =>
    refine .sameBind fun word hword => ?_
    cases hword
    by_cases hzero : (nonzero && p.setWidth kind.bits == 0) = true
    · simp only [if_pos hzero]
      exact .of_error rfl
    · simp only [if_neg hzero]
      exact mirrors_result hc (.ofBits _ kind)
  | @cells list p hsymbols hlow =>
    have hcount : ∀ act' : Run Store Scalar,
        Store.Performs E D s0 act' (.ofBits (way.eval (p.setWidth kind.bits)).toNat kind) →
        ∀ m1 : Machine, Shadows (view v s0) E D
          (onStore (Store.countBits way (.cells list) kind) >>= c.result)
          (onStore act' >>= c'.result) m1 := fun act' hact' m1 =>
      .bind (mirrors_onStore (Store.mirrors_countBits hagrees hact')) fun r r' _ _ hr =>
        mirrors_result hc hr
    change Mirrors _ E D _ _
      (if (nonzero && p.setWidth kind.bits == 0) = true then
        (Run.fail (.zeroOperand c'.callee) : Run Machine Unit) >>= fun _ => _
      else c'.result (.ofBits (Operator.bitCount way (p.setWidth kind.bits)) kind)) _
    rw [← BitCount.toNat_eval]
    by_cases hzero : (nonzero && p.setWidth kind.bits == 0) = true
    · rw [if_pos hzero]
      have hnonzero : nonzero := (Bool.and_eq_true_iff.1 hzero).1
      exact hcount (Run.fail (.zeroOperand c'.callee))
        (.inr (.inl ⟨_, _, rfl, hE hnonzero c'.callee⟩)) _
    · rw [if_neg hzero]
      exact hcount (pure _) (.inl rfl) _

/-! ## Memory -/

theorem mirrors_exchange : Shadows (view v s0) E D (exchange c) (exchange c') m := by
  unfold exchange
  rw [elemType_agrees hc]
  refine .sameFailureBind fun ty _ => .bindOf (mirrors_pointer hc 0) fun p _ _ => ?_
  refine .bind (mirrors_readScalar p ty) fun old old' _ _ hold => ?_
  refine .bind (mirrors_prim hc 1) fun new new' _ _ hnew => ?_
  exact .bind (mirrors_writeScalar p hnew ty true) fun _ _ _ _ _ => mirrors_result hc hold.agrees

theorem mirrors_fetch (op : FetchOp) : Shadows (view v s0) E D (fetch c op) (fetch c' op) m := by
  unfold fetch
  rw [elemType_agrees hc]
  refine .sameFailureBind fun ty _ => .sameBind fun kind _ => ?_
  refine .bindOf (mirrors_pointer hc 0) fun p _ _ => ?_
  refine .bind (mirrors_readScalar p ty) fun old old' _ _ hold => ?_
  refine .bind (mirrors_prim hc 1) fun b b' _ _ hb => ?_
  have hop : op.op = .div ∨ op.op = .rem → E .divisionByZero := by
    rintro (h | h) <;> cases op <;> cases h
  refine .bind (mirrors_onStore (Operator.mirrors_binary hold.agrees hb (fun _ => rfl) hop)) ?_
  exact fun new new' _ _ hnew => .bind (mirrors_writeScalar p hnew ty true) fun _ _ _ _ _ =>
    mirrors_result hc hold.agrees

theorem mirrors_copy : Shadows (view v s0) E D (copy c) (copy c') m := by
  unfold copy
  rw [elemType_agrees hc]
  refine .sameFailureBind fun ty _ => .bindOf (mirrors_count hc 2) fun n _ _ => ?_
  refine .bindOf (mirrors_pointer hc 0) fun source _ _ => ?_
  refine .bindOf (mirrors_pointer hc 1) fun dest _ _ => ?_
  refine .sameBind fun size _ => .sameBind fun align _ => ?_
  exact mirrors_onMemory (mirrors_copyBytes source dest _ _)

omit hc in
theorem known_setWidth_of_cells {cell : Cell} {rest : List Cell}
    (hlow : p.toNat % 256 ^ (cell :: rest).length = Cell.valueOf v (cell :: rest)) :
    Cell.known (p.setWidth 8) = cell.ground v := by
  have hbyte : p.toNat % 256 = (cell.eval v).toNat := by
    have hdvd : 256 ∣ 256 ^ (cell :: rest).length := dvd_pow_self 256 (by simp)
    have hlt := (cell.eval v).isLt
    rw [← Nat.mod_mod_of_dvd _ hdvd, hlow, Cell.valueOf]
    omega
  rw [Cell.ground]
  congr 1
  apply eq_of_toNat_eq
  rw [toNat_setWidth]
  exact hbyte

theorem mirrors_fill : Shadows (view v s0) E D (writeBytes c) (writeBytes c') m := by
  unfold writeBytes
  rw [elemType_agrees hc]
  refine .sameFailureBind fun ty _ => .bindOf (mirrors_pointer hc 0) fun p _ _ => ?_
  refine .bind (mirrors_prim hc 1) fun a a' _ _ ha => ?_
  refine .bindOf (mirrors_count hc 2) fun n m1 _ => ?_
  have hrest : ∀ cell cell', cell' = cell.ground v → Shadows (view v s0) E D
      (do
        let size ← ty.size
        let align ← ty.align
        onMemory (writeRepeat p cell (size * n) align))
      (do
        let size ← ty.size
        let align ← ty.align
        onMemory (writeRepeat (p.ground v) cell' (size * n) align)) m1 := by
    rintro cell _ rfl
    exact .sameBind fun size _ => .sameBind fun align _ =>
      mirrors_onMemory (mirrors_writeRepeat p cell _ _)
  cases ha with
  | undef | ptr => exact .of_error rfl
  | bits q => exact hrest _ _ rfl
  | @cells list q hsymbols hlow =>
    cases list with
    | nil => exact .of_error rfl
    | cons cell rest => exact hrest _ _ (known_setWidth_of_cells hlow)

theorem mirrors_transmute : Shadows (view v s0) E D (transmute c) (transmute c') m := by
  have harg : Mirrors (view v s0) E D (Arg.Agrees v) (liftM (c.arg 0)) (liftM (c'.arg 0)) m :=
    mirrors_arg hc 0
  obtain ⟨_, _, _, -, hdest⟩ := hc
  cases hdest with
  | none => exact .pure trivial
  | some hd =>
    obtain ⟨p, ty, -⟩ := hd
    refine .bind harg fun a a' _ _ ha => ?_
    obtain ⟨source, hvalue, -⟩ := ha
    refine .sameBind fun size _ => .sameBind fun sourceSize _ => ?_
    by_cases hsize : sourceSize ≠ size
    · simp only [if_pos hsize]
      exact .of_error rfl
    · simp only [if_neg hsize]
      exact .bind (mirrors_onMemory (mirrors_markPacked p size)) fun _ _ _ _ _ =>
        mirrors_writeValue p hvalue source false

end

/-! ## Comparison and exchange -/

theorem writeScalar_congr (p : Pointer) (hkind : ty.kind = .ok kind)
    (h : q.toNat % 256 ^ kind.numBytes = r.toNat % 256 ^ kind.numBytes) :
    writeScalar p (.bits q) ty true = writeScalar p (.bits r) ty true := by
  unfold writeScalar
  cases hsize : ty.size with
  | error => rfl
  | ok size =>
    have hlow : q.toNat % 256 ^ size.toNat = r.toNat % 256 ^ size.toNat := by
      rwa [Ty.size_of_kind hkind hsize, Int.toNat_natCast]
    cases ty.align with
    | error => rfl
    | ok align => exact congrArg onMemory (Memory.writeScalar_congr p align hlow)

/-- The same value written where it was read changes nothing. -/
theorem writeScalar_of_readScalar (hordered : m.memory.Ordered) (hmarked : m.memory.Marked)
    {p : Pointer} (hkind : ty.kind = .ok kind) (hread : readScalar p ty m = .ok (.bits q) m)
    (hlow : r.toNat % 256 ^ kind.numBytes = q.toNat % 256 ^ kind.numBytes) :
    writeScalar p (.bits r) ty true m = .ok () m := by
  obtain ⟨-, size, kind', align, hsize, hkind', halign, hread⟩ := readScalar_eq_ok.1 hread
  obtain rfl : kind = kind' := Except.ok.inj (hkind.symm.trans hkind')
  have hwrite := Memory.writeScalar_of_readScalar hordered hmarked (Ty.size_of_kind hkind hsize)
    hread hlow
  unfold writeScalar
  rw [hsize, halign]
  change onMemory (Memory.writeScalar p (.bits r) size align) m = _
  unfold onMemory
  rw [hwrite]

/-- The word that a known value holds. -/
def wordOf (kind : Kind) : Scalar → BitVec kind.bits
  | .bits p => p.setWidth kind.bits
  | _ => 0

theorem mirrors_chosen (hlist : Scalar.Agrees v (.cells list) (.ofBool b))
    (hnew : new.Agrees v new') (hold : old.Agrees v old') :
    Mirrors (Store.view v s0) E D (Scalar.Agrees v) (Store.select (.cells list) new old kind)
      (pure (.ofBits (wordOf kind (if b then new' else old')).toNat kind)) s := by
  refine mirrors_select fun c x y hc hx hy => .inl ?_
  obtain ⟨rfl, hlength⟩ := Decision.truth_cells_eq_ok hc
  obtain ⟨p, rfl, hp⟩ := term_agrees hnew hx
  obtain ⟨q, rfl, hq⟩ := term_agrees hold hy
  have htruth : (Decision.isTrue list).holds v = b := by
    generalize hbool : Scalar.ofBool b = a at hlist
    cases hlist with
    | cells _ hlow =>
      rw [Bool.eq_iff_iff, Cast.holds_isTrue_iff hlength, ← hlow, hlength]
      obtain rfl := Scalar.bits.inj hbool
      cases b <;> decide
  have heval : (Term.choose (Decision.isTrue list) x y).eval v
      = wordOf kind (if b then .bits p else .bits q) := by
    rw [Term.eval, Term.eval_of_holds, htruth, hp, hq]
    cases b <;> rfl
  rw [heval]
  rfl

theorem select_eq_ok {cond yes no r : Scalar} (h : select cond yes no kind s = .ok r s') :
    ∃ a b, s.term yes kind = .ok a ∧ s.term no kind = .ok b := by
  obtain ⟨_, _, ⟨⟩, h⟩ := bind_eq_ok.1 h
  obtain ⟨c, -, h⟩ := ofBind_eq_ok.1 h
  obtain ⟨a, ha, h⟩ := ofBind_eq_ok.1 h
  obtain ⟨b, hb, -⟩ := ofBind_eq_ok.1 h
  exact ⟨a, b, ha, hb⟩

theorem onStore_eq_ok {act : Run Store α} {a : α} (h : onStore act m = .ok a m') :
    ∃ s', act m.memory.store = .ok a s' ∧ m' = { m with memory := { m.memory with store := s' } } := by
  unfold onStore onMemory Memory.onStore at h
  cases hact : act m.memory.store with
  | ok b s' =>
    rw [hact] at h
    cases h
    exact ⟨s', rfl, rfl⟩
  | error e s' =>
    rw [hact] at h
    cases h

/-- The stored value where it depends on symbolic bytes whether the exchange takes place. -/
theorem mirrors_stored {p : Pointer} (hkind : ty.kind = .ok kind) (hordered : m.memory.Ordered)
    (hmarked : m.memory.Marked) (hlist : Scalar.Agrees v (.cells list) (.ofBool b))
    (hnew : new.Agrees v new') (hold : old.Agrees v old')
    (hread : readScalar (p.ground v) ty (m.ground v s0) = .ok old' (m.ground v s0)) :
    Shadows (view v s0) E D
      (do
        let stored ← onStore (Store.select (.cells list) new old kind)
        writeScalar p stored ty true)
      (if b then writeScalar (p.ground v) new' ty true else pure ()) m := by
  refine .of_ok fun hok => ?_
  obtain ⟨_, _, hok⟩ := hok
  obtain ⟨_, _, hselect, -⟩ := bind_eq_ok.1 hok
  obtain ⟨_, hselect, -⟩ := onStore_eq_ok hselect
  obtain ⟨x, y, hx, hy⟩ := select_eq_ok hselect
  obtain ⟨q, rfl, -⟩ := Store.term_agrees hnew hx
  obtain ⟨r, rfl, -⟩ := Store.term_agrees hold hy
  have hlow : ∀ n : BitVec 128, ∃ z : BitVec 128,
      ofBits (n.setWidth kind.bits).toNat kind = .bits z ∧
      z.toNat % 256 ^ kind.numBytes = n.toNat % 256 ^ kind.numBytes := by
    intro n
    obtain ⟨z, hz, -⟩ := ofBits_eq_bits (n.setWidth kind.bits).toNat kind
    refine ⟨z, hz, ?_⟩
    rw [toNat_ofBits hz, toNat_setWidth, pow_numBytes, Nat.mod_mod]
  have hbody : Shadows (view v s0) E D _
      (do
        let stored ← onStore (pure (.ofBits (wordOf kind (if b then .bits q else .bits r)).toNat kind))
        writeScalar (p.ground v) stored ty true) m :=
    .bind (mirrors_onStore (mirrors_chosen hlist hnew hold)) fun _ _ _ _ h =>
      mirrors_writeScalar p h ty true
  refine .of_right hbody (.inl ?_)
  cases b with
  | true =>
    obtain ⟨z, hz, hqz⟩ := hlow q
    change writeScalar (p.ground v) (.bits q) ty true _
      = writeScalar (p.ground v) (.ofBits (q.setWidth kind.bits).toNat kind) ty true _
    rw [hz, writeScalar_congr _ hkind hqz.symm]
  | false =>
    obtain ⟨z, hz, hrz⟩ := hlow r
    change _ = writeScalar (p.ground v) (.ofBits (r.setWidth kind.bits).toNat kind) ty true _
    rw [hz]
    exact (writeScalar_of_readScalar (ordered_ground hordered) (marked_ground hmarked)
      hkind hread hrz).symm

theorem eq_of_prim (h : c.prim i m = .ok a m') : m' = m := by
  obtain ⟨arg, -, hread⟩ := ofBind_eq_ok.1 h
  rw [← final_of_ok hread]
  exact keeps_readArg arg _

theorem eq_of_pointer {p : Pointer} (h : c.pointer i m = .ok p m') : m' = m := by
  obtain ⟨a, _, ha, hp⟩ := bind_eq_ok.1 h
  obtain ⟨-, rfl⟩ := of_eq_ok.1 hp
  exact eq_of_prim ha

theorem mirrors_compareExchange (hc : c.Agrees v c') (hordered : m.memory.Ordered)
    (hD : ¬ m.memory.Marked → D) :
    Shadows (view v s0) E D (compareExchange c) (compareExchange c') m := by
  unfold compareExchange
  rw [elemType_agrees hc]
  refine .sameFailureBind fun ty _ => .sameBind fun kind hkind => ?_
  refine .bindOf (mirrors_pointer hc 0) fun p m1 hm1 => ?_
  obtain rfl := eq_of_pointer hm1
  refine .bind (mirrors_prim hc 1) fun expected expected' m2 hm2 hexpected => ?_
  obtain rfl := eq_of_prim hm2
  refine .bind (mirrors_prim hc 2) fun new new' m3 hm3 hnew => ?_
  obtain rfl := eq_of_prim hm3
  refine .bind (mirrors_read p ty) fun old old' m4 hm4 hold => ?_
  obtain ⟨rfl, -⟩ := readScalar_eq_ok.1 hm4
  obtain ⟨⟨hold, -⟩, hread⟩ := hold
  have hequal : Mirrors (view v s0) E D (Scalar.Agrees v)
      (onStore (Operator.binary .eq old expected kind none))
      (onStore (Operator.binary .eq old' expected' kind none)) m4 :=
    mirrors_onStore (Operator.mirrors_binary hold hexpected (fun _ => rfl) (by rintro (h | h) <;> cases h))
  refine .bindResult hequal fun success success' m5 D' hm5 hsuccess hD' hresult => ?_
  obtain ⟨s, -, hstore⟩ := onStore_eq_ok hm5
  have hground : m5.ground v s0 = m4.ground v s0 := by
    rw [hstore]
    rfl
  have hpair : ∀ {success success' : Scalar} {m6 : Machine}, success.Agrees v success' →
      Shadows (view v s0) E D' (c.resultPair old success) (c'.resultPair old' success')
        m6 := fun h => mirrors_resultPair hc hold h
  have hagrees := hsuccess
  cases hsuccess with
  | undef => exact hpair .undef
  | ptr q => exact hpair (.ptr q)
  | bits w =>
    refine .sameBind fun b _ => ?_
    cases b with
    | true => exact .bind (mirrors_writeScalar p hnew ty true) fun _ _ _ _ _ => hpair hagrees
    | false => exact hpair hagrees
  | @cells list w hsymbols hlow =>
    by_cases hexcepted : D'
    · have hselect : Mirrors (view v s0) E D' (Scalar.Agrees v)
          (onStore (select (.cells list) new old kind)) (onStore (pure .undef)) m5 :=
        mirrors_onStore (mirrors_select fun _ _ _ _ _ _ => .inr (.inr hexcepted))
      exact .of_excepted hexcepted (.bind hselect fun stored stored' _ _ hstored =>
        .bind (mirrors_writeScalar p hstored ty true) fun _ _ _ _ _ => hpair hagrees)
    · have hmarked : m5.memory.Marked := by
        by_contra hmarked
        rw [hstore] at hmarked
        exact hexcepted (hD' (hD hmarked))
      have hordered5 : m5.memory.Ordered := by
        rw [hstore]
        exact ⟨hordered.increasing, hordered.below⟩
      rw [← hground] at hread
      obtain ⟨g, g', hg⟩ := hresult.resolve_left hexcepted
      obtain ⟨_, hg, -⟩ := onStore_eq_ok hg
      obtain ⟨b, hb⟩ := Operator.ofBool_of_binary_eq hold hexpected hg
      rw [hb] at hagrees
      obtain rfl := bits.inj hb
      have hstored := Mirrors.bind (mirrors_stored (E := E) (D := D') hkind hordered5 hmarked hagrees
        hnew hold hread) fun _ _ _ _ _ => hpair hagrees
      rw [bind_assoc] at hstored
      cases b <;> exact hstored

/-! ## Pointers -/

theorem length_of_derive {t : Term kind.bits} (h : derive kind t s = .ok (.cells list) s') :
    list.length = kind.numBytes := by
  obtain ⟨c, -, hderive⟩ | ⟨-, hderive⟩ := derive_cases kind t s
  · cases hderive.symm.trans h
  · cases hderive.symm.trans h
    simp [cellsFrom]

theorem low_of_agrees (ha : a.Agrees v (.bits p))
    (hlength : ∀ list, a = .cells list → list.length = Kind.i64.numBytes) :
    a.low v = p.setWidth 64 := by
  cases ha with
  | bits => rfl
  | @cells list _ _ hlow =>
    apply eq_of_toNat_eq
    rw [low, ← hlow, hlength list rfl, toNat_ofNat, toNat_setWidth]
    exact Nat.mod_mod p.toNat (2 ^ 64)

theorem mirrors_word (hscope : ∀ i ∈ t.symbols, i < s.size) :
    Mirrors (Store.view v s0) E D (fun r w => w = r.low v) (Store.derive .i64 t)
      (pure (t.eval v)) s := by
  intro r s' hok
  have hperforms : Store.Performs E D s0 (pure (.ofBits (t.eval v).toNat .i64))
      (.ofBits (t.eval v).toNat .i64) := .inl rfl
  obtain ⟨hdevelops, -, hact⟩ := Store.mirrors_derive hscope hperforms r s' hok
  refine ⟨hdevelops, ⟨_, rfl⟩, fun hv => ?_⟩
  obtain ⟨a', hagrees, ⟨⟩⟩ | ⟨_, _, ⟨⟩, _⟩ | hD := hact hv
  · refine .inl ⟨_, rfl, ?_⟩
    obtain ⟨p, hp, hlow⟩ := ofBits_eq_bits (t.eval v).toNat .i64
    rw [hp] at hagrees
    have hword : p.setWidth Kind.i64.bits = t.eval v := by
      rw [hlow, ofInt_natCast, ofNat_toNat, setWidth_eq]
    rw [low_of_agrees hagrees fun list hlist => length_of_derive (hlist ▸ hok)]
    exact congrArg (EStateM.Result.ok · s0) hword.symm
  · exact .inr (.inr hD)

theorem mirrors_wordBinary {op : BinOp} (word : WordOp) {lhs rhs : Scalar} {x y : BitVec 64}
    (hshift : op.isShift = false)
    (hop : ∀ a b : Term Kind.i64.bits, Store.combine Kind.i64.isSigned op a b = .word (.binary word a b))
    (hl : ∀ t, s.term lhs .i64 = .ok t → t.eval v = x)
    (hr : ∀ t, s.term rhs .i64 = .ok t → t.eval v = y) :
    Mirrors (Store.view v s0) E D (fun r w => w = r.low v) (Store.binary op lhs rhs .i64 none)
      (pure (word.eval x y)) s := by
  refine .getBind (.liftBind fun a ha => .liftBind fun b hb => ?_)
  have hsecond : s.term rhs .i64 = .ok b := by
    unfold Store.secondOperand at hb
    rw [hshift, if_neg (by simp)] at hb
    obtain ⟨t, ht, hcast⟩ := bind_iff.1 hb
    rw [dif_pos (show (none.getD Kind.i64).bits = Kind.i64.bits from rfl)] at hcast
    cases hcast
    exact ht
  have hscope : ∀ i ∈ (Term.binary word a b).symbols, i < s.size := by
    have := Store.symbols_combine_lt Kind.i64.isSigned op (Store.symbols_term_lt ha)
      (Store.symbols_term_lt hsecond)
    rwa [hop a b] at this
  have hword : Mirrors (Store.view v s0) E D (fun r w => w = r.low v)
      (Store.derive .i64 (.binary word a b)) (pure ((Term.binary word a b).eval v)) s :=
    mirrors_word hscope
  rw [Term.eval, hl a ha, hr b hsecond] at hword
  rw [hop a b]
  exact hword

theorem eval_term_eq_low (h : s.term a .i64 = .ok t) : t.eval v = a.low v := by
  obtain ⟨p, rfl, rfl⟩ | ⟨list, rfl, -, -, rfl⟩ := term_eq_ok.1 h
  · rfl
  · rfl

theorem ground_atOffset (id : Nat) (a : Scalar) :
    (Pointer.atOffset id a).ground v = .known id (a.low v).toNat := by
  cases a <;> rfl

def movedTo (v : Valuation) (p : Pointer) (delta : Int) : BitVec 64 :=
  p.offset.low v + BitVec.ofInt 64 delta

theorem mirrors_symbolicOffset (p : Pointer) (size : Int) (hcount : count.Agrees v (.bits q)) :
    Mirrors (view v s0) E D (Scalar.Agrees v) (symbolicOffset (.ptr p) count size)
      (pure (.ptr (.known p.alloc (movedTo v p ((q.setWidth 64).toInt * size)).toNat))) m := by
  have hsize : (ofInt size).low v = BitVec.ofInt 64 size := by
    apply eq_of_toNat_eq
    simp only [ofInt, low, toNat_setWidth, toNat_ofInt]
    omega
  have hscaled : BitVec.ofInt 64 ((q.setWidth 64).toInt * size)
      = BitVec.ofInt 64 size * q.setWidth 64 := by
    rw [ofInt_mul, ofInt_toInt, mul_comm]
  have hmul : Mirrors (Store.view v s0) E D (fun r w => w = r.low v)
      (Store.binary .mul (.ofInt size) count .i64 none)
      (pure (BitVec.ofInt 64 ((q.setWidth 64).toInt * size))) m.memory.store := by
    rw [hscaled]
    refine mirrors_wordBinary .mul rfl (fun _ _ => rfl) (fun t ht => ?_) fun t ht => ?_
    · rw [eval_term_eq_low ht, hsize]
    · obtain ⟨_, ⟨⟩, heval⟩ := Store.term_agrees hcount ht
      exact heval
  have hadd : ∀ s scaled, Mirrors (Store.view v s0) E D (fun r w => w = r.low v)
      (Store.binary .add p.offset scaled .i64 none) (pure (p.offset.low v + scaled.low v)) s :=
    fun s scaled => mirrors_wordBinary .add rfl (fun _ _ => rfl)
      (fun _ => eval_term_eq_low) fun _ => eval_term_eq_low
  change Mirrors _ E D _ _
    (do
      let w ← onStore (pure (BitVec.ofInt 64 ((q.setWidth 64).toInt * size)))
      let w ← onStore (pure (p.offset.low v + w))
      pure (ptr (.known p.alloc w.toNat))) m
  refine .bindOf (mirrors_onStore hmul) fun scaled m1 _ => ?_
  refine .bindOf (mirrors_onStore (hadd _ scaled)) fun offset m2 _ => ?_
  refine .pure ?_
  rw [← ground_atOffset]
  exact .ptr _

/-- A known pointer that has to stay in its allocation. -/
theorem knownOffset_checked (g : Machine) (id offset : Nat) (delta : Int) :
    knownOffset (.ptr (.known id offset)) delta false g =
      match g.memory.find? id with
      | none => .error (.error (.dead id)) g
      | some a =>
        if offset + delta < 0 || (a.size : Int) < offset + delta then
          .error (.error .offsetOutside) g
        else .ok (.ptr (.known id (BitVec.ofInt 64 (offset + delta)).toNat)) g := by
  have hget : knownOffset (.ptr (.known id offset)) delta false g =
      ((liftM (g.memory.get id) : Run Machine Allocation) >>= fun a =>
        if offset + delta < 0 || (a.size : Int) < offset + delta then
          (Run.fail .offsetOutside : Run Machine Scalar)
        else pure (.ptr (.known id (BitVec.ofInt 64 (offset + delta)).toNat))) g := rfl
  rw [hget]
  unfold Memory.get
  cases g.memory.find? id with
  | none => rfl
  | some a =>
    change (ite _ (Run.fail .offsetOutside) (pure _) : Run Machine Scalar) g = ite _ _ _
    by_cases hout : (offset + delta < 0 || (a.size : Int) < offset + delta) = true
    · rw [if_pos hout, if_pos hout]
      rfl
    · rw [if_neg hout, if_neg hout]
      rfl

theorem mirrors_knownOffset (id offset : Nat) (delta : Int) (wrapping : Bool) :
    Mirrors (view v s0) E D (Scalar.Agrees v) (knownOffset (.ptr (.known id offset)) delta wrapping)
      (knownOffset (.ptr (.known id offset)) delta wrapping) m := by
  intro a m' hok
  have hmoved : a = .ptr (.known id (BitVec.ofInt 64 (offset + delta)).toNat) ∧ m' = m ∧
      knownOffset (.ptr (.known id offset)) delta wrapping (m.ground v s0) = .ok a (m.ground v s0) := by
    cases wrapping with
    | true =>
      cases hok
      exact ⟨rfl, rfl, rfl⟩
    | false =>
      have hfind : (m.ground v s0).memory.find? id = (m.memory.find? id).map (Allocation.ground v) :=
        find?_ground id
      rw [knownOffset_checked] at hok ⊢
      rw [hfind]
      cases hfound : m.memory.find? id with
      | none =>
        rw [hfound] at hok
        cases hok
      | some x =>
        simp only [hfound] at hok
        simp only [Option.map_some, Allocation.size_ground]
        split at hok
        · cases hok
        · rename_i hout
          cases hok
          exact ⟨rfl, rfl, if_neg hout⟩
  obtain ⟨rfl, rfl, hok'⟩ := hmoved
  exact ⟨develops_composes.refl _, ⟨_, .ptr _⟩, fun _ => .inl ⟨_, .ptr _, hok'⟩⟩

theorem low_offset {p : Pointer} {offset : Nat} (h : p.ground v = .known p.alloc offset) :
    p.offset.low v = BitVec.ofNat 64 offset := by
  apply BitVec.eq_of_toNat_eq
  cases p with
  | known =>
    cases h
    simp only [Pointer.offset, ofNat, low, BitVec.toNat_setWidth, BitVec.toNat_ofNat]
    omega
  | symbolic =>
    cases h
    simp [Pointer.offset]

/-- A number that is moved as if it were a pointer has to be known. -/
theorem mirrors_numberOffset (ha : a.Agrees v (.bits p)) (delta : Int) (wrapping : Bool) :
    Mirrors (view v s0) E D (Scalar.Agrees v) (knownOffset a delta wrapping)
      (knownOffset (.bits p) delta wrapping) m := by
  by_cases hmoves : (decide (delta ≠ 0) && !wrapping) = true
  · have hfail : knownOffset a delta wrapping m = .error (.error .integerOffset) m := by
      cases ha <;> simp only [knownOffset, hmoves, if_true] <;> rfl
    exact .of_error hfail
  · cases ha with
    | bits =>
      simp only [knownOffset, hmoves]
      exact .sameBind fun n _ => .pure (.ofNat _)
    | cells =>
      simp only [knownOffset, hmoves]
      exact .of_error rfl

/-- A pointer with a known offset in the place of one that was moved without a check. -/
theorem mirrors_moved (p : Pointer) (size : Int) (wrapping : Bool)
    (hcount : count.Agrees v (.bits q))
    (hE : wrapping = false → ∀ e, Intrinsic.Omits (.offset false) e → E e) :
    Mirrors (view v s0) E D (Scalar.Agrees v) (symbolicOffset (.ptr p) count size)
      (knownOffset (.ptr (p.ground v)) ((q.setWidth 64).toInt * size) wrapping) m := by
  have hsymbolic : Mirrors (view v s0) E D (Scalar.Agrees v) (symbolicOffset (.ptr p) count size) _ m :=
    mirrors_symbolicOffset p size hcount
  generalize (q.setWidth 64).toInt * size = delta at hsymbolic ⊢
  obtain ⟨o, ho⟩ := p.exists_ground v
  have hword : BitVec.ofInt 64 (o + delta) = movedTo v p delta := by
    rw [BitVec.ofInt_add, movedTo, BitVec.ofInt_natCast, low_offset ho]
  refine .of_right hsymbolic ?_
  rw [ho, ← hword]
  cases wrapping with
  | true => exact .inl rfl
  | false =>
    rw [knownOffset_checked]
    split
    · exact .inr ⟨_, _, rfl, hE rfl _ (.inr ⟨_, rfl⟩)⟩
    · split
      · exact .inr ⟨_, _, rfl, hE rfl _ (.inl rfl)⟩
      · exact .inl rfl

theorem mirrors_offset (hc : c.Agrees v c') (wrapping : Bool)
    (hE : wrapping = false → ∀ e, Intrinsic.Omits (.offset false) e → E e) :
    Shadows (view v s0) E D (offset c wrapping) (offset c' wrapping) m := by
  unfold offset
  rw [elemType_agrees hc]
  refine .sameFailureBind fun ty _ => .sameBind fun size _ => ?_
  refine .bind (mirrors_prim hc 0) fun base base' _ _ hbase => ?_
  refine .bind (mirrors_prim hc 1) fun count count' _ _ hcount => ?_
  have hresult : ∀ {a a' : Run Machine Scalar} {m1 : Machine},
      Mirrors (view v s0) E D (Scalar.Agrees v) a a' m1 →
      Shadows (view v s0) E D (a >>= c.result) (a' >>= c'.result) m1 :=
    fun h => .bind h fun r r' _ _ hr => mirrors_result hc hr
  cases hbase with
  | undef => exact .fail _
  | bits b =>
    cases hcount with
    | undef | ptr | cells => exact .of_error rfl
    | bits q => exact hresult (mirrors_numberOffset (.bits b) _ wrapping)
  | cells hsymbols hlow =>
    cases hcount with
    | undef | ptr | cells => exact .of_error rfl
    | bits q => exact hresult (mirrors_numberOffset (.cells hsymbols hlow) _ wrapping)
  | ptr p =>
    obtain ⟨o, ho⟩ := p.exists_ground v
    cases hcount with
    | undef => exact .of_error rfl
    | ptr => cases p <;> exact .of_error rfl
    | bits q =>
      cases p with
      | known id offset => exact hresult (mirrors_knownOffset id offset _ wrapping)
      | symbolic id offset => exact hresult (mirrors_moved _ size wrapping (.bits q) hE)
    | cells hsymbols hlow =>
      have hmoved : ∀ m1, Mirrors (view v s0) E D (Scalar.Agrees v) _ _ m1 := fun m1 =>
        mirrors_moved p size wrapping (.cells hsymbols hlow) hE
      rw [ho] at hmoved ⊢
      exact hresult (hmoved _)

/-! ## Reflection -/

theorem mirrors_extent (ty : Ty) (callee : String) {value value' : Value}
    (hvalue : value.Agrees v value') : Mirrors (view v s0) E D Eq
      (do
        if ← ty.isSized then ty.extent none
        else
          match value with
          | .pair _ (.cells _) => Run.fail (.symbolicLength callee)
          | .pair _ length => ty.extent (some (← length.toU64 : Int))
          | _ => Run.fail (.valueWithoutLength callee) : Run Machine (Option Int × Nat))
      (do
        if ← ty.isSized then ty.extent none
        else
          match value' with
          | .pair _ (.cells _) => Run.fail (.symbolicLength callee)
          | .pair _ length => ty.extent (some (← length.toU64 : Int))
          | _ => Run.fail (.valueWithoutLength callee) : Run Machine (Option Int × Nat)) m := by
  refine .sameBind fun sized _ => ?_
  cases sized with
  | true => exact Mirrors.same_failure (ty.extent none)
  | false =>
    cases hvalue with
    | one | inMemory => exact .fail _
    | pair _ hlength =>
      cases hlength with
      | cells => exact .fail _
      | bits n => exact Mirrors.same_failure (ty.extent _)
      | ptr | undef => exact .of_error rfl

theorem mirrors_valueExtent (hc : c.Agrees v c') :
    Mirrors (view v s0) E D Eq (valueExtent c) (valueExtent c') m := by
  refine .bind (mirrors_arg hc 0) fun a a' m1 _ ha => ?_
  obtain ⟨_, callee, typeArgs, -, -⟩ := hc
  obtain @⟨value, value', argTy, hvalue, -⟩ := ha
  cases typeArgs with
  | cons ty => exact mirrors_extent ty callee hvalue
  | nil => exact .sameBind fun ty _ => mirrors_extent ty callee hvalue

theorem mirrors_typeName (hc : c.Agrees v c') :
    Shadows (view v s0) E D (typeName c) (typeName c') m := by
  unfold typeName
  rw [typeArg_agrees hc]
  refine .sameBind fun ty _ => .sameFailureBind fun name _ => ?_
  refine .bind (mirrors_onMemory (mirrors_allocateStatic _)) fun p p' _ _ hp => ?_
  obtain ⟨id, rfl, rfl⟩ := hp
  obtain ⟨_, _, _, -, hdest⟩ := hc
  cases hdest with
  | none => exact .pure trivial
  | some hd =>
    obtain ⟨p, ty, -⟩ := hd
    exact mirrors_writePair p (.ptr _) (.ofNat _) .strRef true

/-- A function of numbers looks at the patterns of its arguments only. -/
theorem apply_congr (h : List.Forall₂ (fun a a' => a'.toPattern = a.toPattern) args args') :
    fn.apply kind args' = fn.apply kind args := by
  obtain _ | ⟨hx, _ | ⟨hy, _ | ⟨hz, _ | _⟩⟩⟩ := h
  · rfl
  · cases fn <;> simp only [FloatFn.apply, toDouble, hx]
  · cases fn <;> simp only [FloatFn.apply, toDouble, toI128, hx, hy]
  · cases fn <;> simp only [FloatFn.apply, toDouble, hx, hy, hz]
  · cases fn <;> simp only [FloatFn.apply, toDouble, hx]

theorem agrees_of_apply {r : Scalar} (h : fn.apply kind args = .ok r) : r.Agrees v r := by
  unfold FloatFn.apply at h
  split at h
  · obtain ⟨_, -, h1⟩ := bind_iff.1 h
    obtain ⟨_, -, h2⟩ := bind_iff.1 h1
    obtain ⟨_, -, h3⟩ := bind_iff.1 h2
    simp only [FloatFn.fused] at h3
    split at h3
    · cases h3
      exact .ofNat _
    · cases h3
  · obtain ⟨_, -, h1⟩ := bind_iff.1 h
    obtain ⟨_, -, ⟨⟩⟩ := bind_iff.1 h1
    exact .ofDouble _ kind
  · obtain ⟨_, -, h1⟩ := bind_iff.1 h
    obtain ⟨_, -, ⟨⟩⟩ := bind_iff.1 h1
    exact .ofDouble _ kind
  · obtain ⟨_, -, ⟨⟩⟩ := bind_iff.1 h
    exact .ofDouble _ kind
  · cases h

theorem known_agrees (h : List.Forall₂ (Scalar.Agrees v) args args')
    (hknown : args.any isSymbolic = false) :
    args'.any isSymbolic = false ∧ args'.any isUndef = args.any isUndef ∧
      List.Forall₂ (fun a a' => a'.toPattern = a.toPattern) args args' := by
  induction h with
  | nil => exact ⟨rfl, rfl, .nil⟩
  | cons ha _ ih =>
    rw [List.any_cons, Bool.or_eq_false_iff] at hknown
    obtain ⟨hsymbolic, hundef, hpatterns⟩ := ih hknown.2
    rw [List.any_cons, List.any_cons, List.any_cons, hsymbolic, hundef]
    cases ha with
    | bits | ptr | undef => exact ⟨rfl, rfl, .cons rfl hpatterns⟩
    | cells => cases hknown.1

theorem mirrors_floatMath (hc : c.Agrees v c') (fn : FloatFn) (single : Bool) :
    Shadows (view v s0) E D (floatMath c fn single) (floatMath c' fn single) m := by
  have hresult : ∀ {a a' : Scalar} {m1 : Machine}, a.Agrees v a' →
      Shadows (view v s0) E D (c.result a) (c'.result a') m1 := fun h =>
    mirrors_result hc h
  obtain ⟨_, _, _, hargs, hdest⟩ := hc
  have hread := Mirrors.mapM (V := view v s0) (E := E) (D := D) (R := Scalar.Agrees v) hargs
    (fun x x' m1 hx => (mirrors_readArg hx).mono fun _ _ h => h.agrees) m
  refine .bind hread fun args args' m1 _ hargs => ?_
  by_cases hsymbolic : args.any isSymbolic = true
  · simp only [hsymbolic, if_true]
    exact .of_error rfl
  · obtain ⟨hknown, hundef, hpatterns⟩ := known_agrees hargs (by simpa using hsymbolic)
    simp only [hsymbolic, hknown, hundef, Bool.false_eq_true, if_false]
    split
    · exact hresult .undef
    · rw [apply_congr hpatterns]
      exact .sameFailureBind fun r hr => hresult (agrees_of_apply hr)

/-! ## All intrinsics -/

theorem toBool_bits (p : BitVec 128) :
    (bits p).toBool = if p.toNat = 0 then .ok false
      else if p.toNat = 1 then .ok true else .error (.invalidBool p.toNat) := by
  have hnumber : (bits p).toU128 = .ok p.toNat := rfl
  simp only [Scalar.toBool, hnumber, bind, Except.bind]
  split
  · rename_i h
    rw [if_pos h]
    rfl
  · rename_i h
    rw [if_neg (by omega), if_pos h]
    rfl
  · rename_i h0 h1
    rw [if_neg h0, if_neg h1]
    rfl

/-- An assumption that holds for symbolic bytes holds for known ones, if they are a truth value. -/
theorem mirrors_require (hsymbols : Cell.symbols list ≠ [])
    (hlow : p.toNat % 256 ^ list.length = Cell.valueOf v list) (hE : ∀ n, E (.invalidBool n)) :
    Shadows (view v s0) E D
      (onStore do
        let s ← get
        require (← s.truth (.cells list)))
      (do if !(← (bits p).toBool) then Run.fail .assumptionFailed) m := by
  intro u m' hok
  obtain ⟨s', hstore, rfl⟩ := onStore_eq_ok hok
  have hrest : ((liftM (m.memory.store.truth (.cells list)) : Run Store Condition) >>= require)
      m.memory.store = .ok u s' := hstore
  obtain ⟨cond, htruth, ⟨⟩⟩ := ofBind_eq_ok.1 hrest
  have hscope := symbols_truth_lt htruth
  obtain ⟨rfl, hlength⟩ := Decision.truth_cells_eq_ok htruth
  have hlist : ∀ i ∈ Cell.symbols list, i < m.memory.store.size := fun i hi => hscope i (by
    simpa [Decision.isTrue, Term.differ, Term.equal, Term.symbols] using hi)
  refine ⟨develops_push hscope hlist hsymbols, ⟨(), trivial⟩, fun hv => ?_⟩
  have hholds : (Decision.isTrue list).holds v :=
    hv.2 _ (List.mem_append_right _ (List.mem_singleton_self _))
  have hnonzero : p.toNat ≠ 0 := by
    intro hzero
    rw [hzero, Nat.zero_mod] at hlow
    exact (Cast.holds_isTrue_iff hlength).1 hholds hlow.symm
  rw [toBool_bits, if_neg hnonzero]
  split
  · exact .inl ⟨(), trivial, rfl⟩
  · exact .inr (.inl ⟨_, _, rfl, hE _⟩)

theorem mirrors_perform (hc : c.Agrees v c') (hordered : m.memory.Ordered)
    (hE : ∀ e, c.intrinsic.Omits e → E e)
    (hD : c.intrinsic = .compareExchange → ¬ m.memory.Marked → D) :
    Shadows (view v s0) E D (perform c) (perform c') m := by
  have hcall := hc
  obtain @⟨intrinsic, callee, args, args', dest, dest', typeArgs, hargs, hdest⟩ := hc
  cases intrinsic with
  | withOverflow op =>
    exact .bind (mirrors_overflowArith hcall op) fun x x' _ _ hx => mirrors_resultPair hcall hx.1 hx.2
  | overflowing op =>
    exact .bind (mirrors_overflowArith hcall op) fun x x' _ _ hx => mirrors_result hcall hx.1
  | exactDiv => exact mirrors_arith hcall .div fun _ => hE _ rfl
  | fastAdd => exact mirrors_arith hcall .add (by rintro (h | h) <;> cases h)
  | fastSub => exact mirrors_arith hcall .sub (by rintro (h | h) <;> cases h)
  | fastMul => exact mirrors_arith hcall .mul (by rintro (h | h) <;> cases h)
  | fastDiv => exact mirrors_arith hcall .div fun _ => hE _ rfl
  | fastRem => exact mirrors_arith hcall .rem fun _ => hE _ rfl
  | countOnes => exact mirrors_countBits hcall .ones false nofun
  | leadingZeros nonzero =>
    refine mirrors_countBits hcall .leadingZeros nonzero fun h name => hE _ ?_
    subst h
    exact ⟨name, rfl⟩
  | trailingZeros nonzero =>
    refine mirrors_countBits hcall .trailingZeros nonzero fun h name => hE _ ?_
    subst h
    exact ⟨name, rfl⟩
  | exchange => exact mirrors_exchange hcall
  | compareExchange => exact mirrors_compareExchange hcall hordered (hD rfl)
  | fetch op => exact mirrors_fetch hcall op
  | fence => exact .pure trivial
  | offset wrapping =>
    refine mirrors_offset hcall wrapping fun h e he => hE e ?_
    subst h
    exact he
  | alignOffset => exact mirrors_resultUsize hcall _
  | assume =>
    refine .bind (mirrors_prim hcall 0) fun a a' _ _ ha => ?_
    cases ha with
    | undef | ptr => exact .of_error rfl
    | bits p =>
      refine .sameBind fun b _ => ?_
      cases b with
      | true => exact .pure trivial
      | false => exact .fail _
    | cells hsymbols hlow => exact mirrors_require hsymbols hlow fun n => hE _ ⟨n, rfl⟩
  | copy => exact mirrors_copy hcall
  | writeBytes => exact mirrors_fill hcall
  | transmute => exact mirrors_transmute hcall
  | typeName => exact mirrors_typeName hcall
  | floatMath fn single => exact mirrors_floatMath hcall fn single
  | likely | unlikely =>
    exact .bind (mirrors_prim hcall 0) fun a a' _ _ ha => mirrors_result hcall ha
  | forget => exact .pure trivial
  | breakpoint => exact .fail _
  | swapBytes =>
    unfold perform
    rw [kind_agrees hcall]
    refine .sameFailureBind fun kind hkind => ?_
    obtain ⟨a, ha, hk⟩ := bind_iff.1 hkind
    refine .bind (mirrors_primAt hcall ha) fun x x' _ _ hx => ?_
    have hlength := fun list hlist => hx.length list kind hlist (lift_eq_ok.1 hk)
    exact .bind (.lift_of_ok fun r hr => Operator.swapBytes_agrees hx.agrees hlength hr)
      fun r r' _ _ hr => mirrors_result hcall hr
  | load =>
    unfold perform
    rw [elemType_agrees hcall]
    refine .sameFailureBind fun ty _ => .bindOf (mirrors_pointer hcall 0) fun p _ _ => ?_
    exact .bind (mirrors_readScalar p ty) fun a a' _ _ ha => mirrors_result hcall ha.agrees
  | store =>
    unfold perform
    rw [elemType_agrees hcall]
    refine .sameFailureBind fun ty _ => .bindOf (mirrors_pointer hcall 0) fun p _ _ => ?_
    exact .bind (mirrors_prim hcall 1) fun a a' _ _ ha => mirrors_writeScalar p ha ty true
  | init =>
    cases hdest with
    | none => exact .pure trivial
    | some hd =>
      obtain ⟨p, ty, -⟩ := hd
      exact .sameBind fun size _ => mirrors_onMemory (mirrors_writeRepeat p (.known 0) size 1)
  | uninit =>
    cases hdest with
    | none => exact .pure trivial
    | some hd =>
      obtain ⟨p, ty, -⟩ := hd
      exact .sameBind fun size _ => mirrors_onMemory (mirrors_markDefinedness p size false)
  | moveValInit =>
    refine .bindOf (mirrors_pointer hcall 0) fun p _ _ => ?_
    refine .bind (mirrors_arg hcall 1) fun a a' _ _ ha => ?_
    obtain ⟨ty, hvalue, -⟩ := ha
    exact mirrors_writeValue p hvalue ty true
  | sizeOf | minAlignOf | prefAlignOf =>
    exact .sameBind fun ty _ => .sameBind fun n _ => mirrors_resultUsize hcall n
  | sizeOfVal | minAlignOfVal | alignOfVal =>
    refine .bind (mirrors_valueExtent hcall) fun x x' _ _ hx => ?_
    obtain rfl := hx
    exact mirrors_resultUsize hcall _
  | typeId =>
    exact .sameBind fun ty _ => .sameFailureBind fun n _ => mirrors_result hcall (.ofNat n)
  | needsDrop =>
    exact .sameBind fun ty _ => mirrors_result hcall (.ofBool _)

theorem mirrors_callIntrinsic (hc : c.Agrees v c') (hordered : m.memory.Ordered)
    (hE : ∀ e, c.intrinsic.Omits e → E e)
    (hD : c.intrinsic = .compareExchange → ¬ m.memory.Marked → D) :
    Shadows (view v s0) E D (callIntrinsic c) (callIntrinsic c') m := by
  have hperform : Shadows (view v s0) E D (perform c) (perform c') m :=
    mirrors_perform hc hordered hE hD
  obtain @⟨intrinsic, callee, args, args', dest, dest', typeArgs, hargs, hdest⟩ := hc
  unfold callIntrinsic
  rw [show args'.length = args.length from hargs.length_eq.symm]
  by_cases harity : args.length ≠ intrinsic.arity
  · simp only [if_pos harity]
    exact .of_error rfl
  · simp only [if_neg harity]
    exact hperform

end Machine
end SymExec

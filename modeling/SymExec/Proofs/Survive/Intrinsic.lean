import SymExec.Proofs.Survive.Machine

/-!
# Intrinsics that do not die

An intrinsic finds the arguments that it needs, since their number is checked first. What it makes of
them is healthy again.
-/
namespace SymExec.Machine

open Run

variable {t : Ty} {fn : FloatFn}

structure IntrinsicCall.Healthy (n : Nat) (c : IntrinsicCall) : Prop where
  args : ∀ a ∈ c.args, a.Healthy n
  dest : ∀ d ∈ c.dest, d.Healthy n
  types : ∀ t ∈ c.typeArgs, t.Modest

variable {p : Program} {busy D : Prop} {n : Nat} {α : Type} {Q : Nat → α → Prop}

namespace IntrinsicCall

variable {c : IntrinsicCall}
variable {index : Nat}

theorem Healthy.mono {i j : Nat} (h : c.Healthy i) (hle : i ≤ j) : c.Healthy j :=
  ⟨fun a ha => (h.args a ha).mono hle, fun d hd => (h.dest d hd).mono hle, h.types⟩

theorem spares_arg (hindex : index < c.args.length) : Spares D (c.arg index) := by
  unfold arg
  rw [List.getElem?_eq_getElem hindex]
  exact .ok _

section

variable (hc : c.Healthy n)
include hc

theorem healthy_arg {a : Arg} (h : c.arg index = .ok a) : a.Healthy n := by
  unfold arg at h
  split at h
  · rename_i ha
    cases h
    exact hc.args a (List.mem_of_getElem? ha)
  · cases h

theorem survives_prim (hindex : index < c.args.length) :
    Survives (contract p busy D) n Scalar.Below (c.prim index) :=
  .liftBind (spares_arg hindex) fun _ ha => survives_readArg (healthy_arg hc ha)

theorem survives_pointer (hindex : index < c.args.length) :
    Survives (contract p busy D) n Pointer.Below (c.pointer index) :=
  .bind (survives_prim hc hindex) fun _ _ _ hv => .liftError (by grind) fun _ hq _ hi =>
    (Scalar.below_toPtr hv hq).mono hi

theorem survives_count (hindex : index < c.args.length) :
    Survives (contract p busy D) n (fun _ count => count < 2 ^ 64) (c.count index) := by
  refine .bind (survives_prim hc hindex) fun k _ v _ => ?_
  split
  · exact .fail _ (.inl rfl)
  · exact .liftError (by grind) fun _ hcount _ _ => Scalar.toU64_lt hcount

theorem survives_result {v : Scalar} (hv : v.Below n) :
    Lasts (contract p busy D) n (c.result v) := by
  unfold result
  split
  · rename_i d hd
    exact survives_writeScalar d.ptr hv (hc.dest d hd).ty true
  · exact .done

theorem survives_resultUsize (x : Int) : Lasts (contract p busy D) n (c.resultUsize x) :=
  survives_result hc (Scalar.below_ofNat _)

theorem survives_resultPair {first second : Scalar} (hfirst : first.Below n)
    (hsecond : second.Below n) : Lasts (contract p busy D) n (c.resultPair first second) := by
  unfold resultPair
  split
  · rename_i d hd
    exact survives_writePair d.ptr hfirst hsecond (hc.dest d hd).ty true
  · exact .done

theorem spares_elemType (hcount : 0 < c.args.length) : Spares D c.elemType := by
  unfold elemType
  split
  · exact .ok _
  · exact .bind (spares_arg hcount) fun _ ha => .lift (Ty.fair_pointee (healthy_arg hc ha).ty)

theorem modest_elemType {t : Ty} (h : c.elemType = .ok t) : t.Modest := by
  unfold elemType at h
  split at h
  · rename_i htypes
    cases h
    exact hc.types t (by simp [htypes])
  · obtain ⟨a, ha, h⟩ := bind_iff.1 h
    exact (healthy_arg hc ha).ty.pointee (lift_eq_ok.1 h)

theorem modest_typeArg {t : Ty} (h : c.typeArg index = .ok t) : t.Modest := by
  unfold typeArg at h
  split at h
  · rename_i ht
    cases h
    exact hc.types t (List.mem_of_getElem? ht)
  · cases h

theorem spares_kind (hcount : 0 < c.args.length) : Spares D c.kind :=
  .bind (spares_arg hcount) fun _ ha => .lift (Ty.fair_kind (healthy_arg hc ha).ty)

end

@[grind .] theorem fair_typeArg (c : IntrinsicCall) (index : Nat) :
    Fails EvalError.Fair (c.typeArg index) := by
  unfold typeArg
  split
  · exact .ok _
  · exact .error (.inl rfl)

end IntrinsicCall

open IntrinsicCall

variable {c : IntrinsicCall}

/-! ## Arithmetic -/

section

variable (hc : c.Healthy n)
include hc

theorem survives_operands (hcount : 1 < c.args.length) {f : Scalar → Scalar → Run Machine α}
    (hf : ∀ k, n ≤ k → ∀ lhs rhs : Scalar, lhs.Below k → rhs.Below k →
      Survives (contract p busy D) k Q (f lhs rhs)) :
    Survives (contract p busy D) n Q (do
      let lhs ← c.prim 0
      let rhs ← c.prim 1
      f lhs rhs) := by
  refine .bind (survives_prim hc (by omega)) fun i hi lhs hlhs => ?_
  refine .bind (survives_prim (hc.mono hi) hcount) fun j hj rhs hrhs => ?_
  exact hf j (hi.trans hj) lhs rhs (hlhs.mono hj) hrhs

theorem survives_overflowArith (hcount : 1 < c.args.length) (op : OverflowOp) :
    Survives (contract p busy D) n (fun k r => r.1.Below k ∧ r.2.Below k) (overflowArith c op) :=
  .liftBind (spares_kind hc (by omega)) fun kind _ =>
    survives_operands hc hcount fun _ _ _ _ hlhs hrhs =>
      survives_onStore (Operator.survives_overflowing hlhs hrhs kind (.inr rfl))

theorem survives_arith (hcount : 1 < c.args.length) (op : BinOp) :
    Lasts (contract p busy D) n (arith c op) := by
  refine .liftBind (spares_kind hc (by omega)) fun kind _ => ?_
  refine survives_operands hc hcount fun k hk lhs rhs hlhs hrhs => ?_
  refine .bind (survives_onStore (Operator.survives_binary hlhs hrhs kind (.inr rfl))) ?_
  exact fun i hi v hv => survives_result (hc.mono (hk.trans hi)) hv

theorem survives_countBits (hcount : 0 < c.args.length) (way : BitCount) (nonzero : Bool) :
    Lasts (contract p busy D) n (countBits c way nonzero) := by
  refine .liftBind (spares_kind hc hcount) fun kind _ => ?_
  refine .bind (survives_prim hc hcount) fun k hk v hv => ?_
  cases v with
  | undef => exact survives_result (hc.mono hk) trivial
  | cells list =>
    refine .bind (survives_onStore (Store.survives_countBits way hv kind)) fun i hi w hw => ?_
    exact survives_result (hc.mono (hk.trans hi)) hw
  | bits x =>
    refine .check (by grind) fun word _ => .guard (fun _ => .fail _ (.inl rfl)) fun _ => ?_
    exact survives_result (hc.mono hk) (Scalar.below_ofBits _ _)
  | ptr q => exact .check (by grind) fun _ h => by cases h

/-! ## Memory -/

theorem survives_exchange (hcount : 1 < c.args.length) :
    Lasts (contract p busy D) n (exchange c) := by
  refine .liftBind (spares_elemType hc (by omega)) fun ty hty => ?_
  have hmodest := modest_elemType hc hty
  refine .bind (survives_pointer hc (by omega)) fun i hi q _ => ?_
  refine .bind (survives_readScalar q hmodest) fun j hj old hold => ?_
  have hij := hi.trans hj
  refine .bind (survives_prim (hc.mono hij) hcount) fun k hk new hnew => ?_
  refine .bind (survives_writeScalar q hnew hmodest true) fun l hl _ _ => ?_
  exact survives_result (hc.mono ((hij.trans hk).trans hl)) (hold.mono (hk.trans hl))

theorem survives_compareExchange (hcount : 2 < c.args.length) :
    Lasts (contract p busy D) n (compareExchange c) := by
  refine .liftBind (spares_elemType hc (by omega)) fun ty hty => ?_
  have hmodest := modest_elemType hc hty
  refine .check (by grind) fun kind _ => ?_
  refine .bind (survives_pointer hc (by omega)) fun i hi q _ => ?_
  refine .bind (survives_prim (hc.mono hi) (by omega)) fun j hj expected hexpected => ?_
  have hc := hc.mono (hi.trans hj)
  refine .bind (survives_prim hc hcount) fun k hk new hnew => ?_
  refine .bind (survives_readScalar q hmodest) fun l hl old hold => ?_
  have hexpected := hexpected.mono (hk.trans hl)
  refine .bind (survives_onStore (Operator.survives_binary hold hexpected kind (.inr rfl))) ?_
  intro r hr success hsuccess
  have hc := hc.mono ((hk.trans hl).trans hr)
  have hnew := hnew.mono (hl.trans hr)
  have hold := hold.mono hr
  have hrest {s : Nat} (hs : r ≤ s) : Lasts (contract p busy D) s
      (c.resultPair old success) :=
    survives_resultPair (hc.mono hs) (hold.mono hs) (hsuccess.mono hs)
  -- an outcome that is not known stores a choice between the two values
  cases success with
  | cells list =>
    refine .bind (survives_onStore (Store.survives_select hsuccess hnew hold kind)) ?_
    intro s hs stored hstored
    exact .bind (survives_writeScalar q hstored hmodest true) fun t ht _ _ => hrest (hs.trans ht)
  | bits x =>
    refine .check (by grind) fun yes _ => ?_
    split
    · exact .bind (survives_writeScalar q hnew hmodest true) fun s hs _ _ => hrest hs
    · exact hrest (Nat.le_refl r)
  | ptr | undef => exact hrest (Nat.le_refl r)

theorem survives_fetch (hcount : 1 < c.args.length) (op : FetchOp) :
    Lasts (contract p busy D) n (fetch c op) := by
  refine .liftBind (spares_elemType hc (by omega)) fun ty hty => ?_
  have hmodest := modest_elemType hc hty
  refine .check (by grind) fun kind _ => ?_
  refine .bind (survives_pointer hc (by omega)) fun i hi q _ => ?_
  refine .bind (survives_readScalar q hmodest) fun j hj old hold => ?_
  have hij := hi.trans hj
  refine .bind (survives_prim (hc.mono hij) hcount) fun k hk operand hoperand => ?_
  have hold := hold.mono hk
  refine .bind (survives_onStore (Operator.survives_binary hold hoperand kind (.inr rfl))) ?_
  intro l hl new hnew
  refine .bind (survives_writeScalar q hnew hmodest true) fun r hr _ _ => ?_
  exact survives_result (hc.mono (((hij.trans hk).trans hl).trans hr)) (hold.mono (hl.trans hr))

theorem survives_copy (hcount : 2 < c.args.length) : Lasts (contract p busy D) n (copy c) := by
  refine .liftBind (spares_elemType hc (by omega)) fun ty hty => ?_
  have hmodest := modest_elemType hc hty
  refine .bind (survives_count hc hcount) fun i hi count hlt => ?_
  refine .bind (survives_pointer (hc.mono hi) (by omega)) fun j hj source _ => ?_
  refine .bind (survives_pointer (hc.mono (hi.trans hj)) (by omega)) fun k hk dest _ => ?_
  refine .check (by grind) fun size hsize => .check (by grind) fun align _ => ?_
  obtain ⟨hnonneg, hsmall⟩ := hmodest.size hsize
  refine survives_copyAt source dest (Int.mul_nonneg hnonneg (Int.natCast_nonneg count))
    (Text.isPrintableInt_of_lt ?_) align
  calc (size * count).natAbs = size.natAbs * count := Int.natAbs_mul size count
    _ ≤ Memory.maxCells * 2 ^ 64 := Nat.mul_le_mul (by omega) hlt.le
    _ < 2 ^ 99 := by decide

/-- How many cells are made depends on an argument. -/
theorem survives_writeBytes (hcount : 2 < c.args.length) (h : D) :
    Lasts (contract p busy D) n (writeBytes c) := by
  refine .liftBind (spares_elemType hc (by omega)) fun ty hty => ?_
  have hmodest := modest_elemType hc hty
  refine .bind (survives_pointer hc (by omega)) fun i hi dest _ => ?_
  refine .bind (survives_prim (hc.mono hi) (by omega)) fun j hj byte hbyte => ?_
  refine .bind (survives_count (hc.mono (hi.trans hj)) hcount) fun k hk count _ => ?_
  extract_lets fill
  have hfill {cell : Cell} (hcell : Cell.Below k [cell]) :
      Lasts (contract p busy D) k (fill cell) := by
    refine .check (by grind) fun size _ => .check (by grind) fun align _ => ?_
    exact survives_edit (Memory.rewrites_writeRepeat dest cell _ align)
      (Memory.survives_writeRepeat dest hcell (.inr h) align)
  cases byte with
  | cells list =>
    cases list with
    | nil => exact .throw (.inr h)
    | cons cell rest =>
      refine hfill (Cell.Below.subset (hbyte.mono hk) fun x hx => ?_)
      rw [List.mem_singleton.1 hx]
      exact List.mem_cons_self
  | bits | ptr | undef =>
    exact .check (by grind) fun _ _ => hfill (Cell.below_replicate k 1 _)

theorem survives_transmute (hcount : 0 < c.args.length) :
    Lasts (contract p busy D) n (transmute c) := by
  unfold transmute
  split
  · exact .done
  · rename_i d hd
    refine .liftBind (spares_arg hcount) fun source hsource => ?_
    have hsource := healthy_arg hc hsource
    have hmodest := hsource.ty
    have hdest := (hc.dest d hd).ty
    refine .check (by grind) fun size hsize => .check (by grind) fun sourceSize hsourceSize => ?_
    have hprintable := hdest.printable hsize
    refine .guard (fun _ => .fail _ (.of_shown ?_)) fun _ => ?_
    · simp [EvalError.shown, Shown.fault?, Json.isPrintable, hprintable, hmodest.printable hsourceSize,
        hmodest.nameFault?_eq_none, hdest.nameFault?_eq_none]
    refine .bind (survives_edit (Memory.rewrites_markPacked d.ptr (hdest.size hsize).1)
      (Memory.survives_markPacked d.ptr hprintable)) fun k hk _ _ => ?_
    exact survives_writeValue d.ptr (hsource.value.mono hk) hsource.ty false

end

/-! ## Pointers -/

theorem survives_symbolicOffset {base count : Scalar} (hbase : base.Below n) (hcount : count.Below n)
    (size : Int) : Survives (contract p busy D) n Scalar.Below
      (symbolicOffset base count size) := by
  cases base with
  | ptr q =>
    refine .bind (survives_onStore (Store.survives_binary (Scalar.below_ofInt size) hcount .i64
      (.inr rfl))) fun i hi scaled hscaled => ?_
    have hoffset : q.offset.Below i := (Pointer.below_offset hbase).mono hi
    refine .bind (survives_onStore (Store.survives_binary hoffset hscaled .i64 (.inr rfl))) ?_
    exact fun j _ moved hmoved => .pure fun k hk =>
      (Pointer.below_atOffset q.alloc hmoved).mono hk
  | bits | undef | cells => exact .fail _ (.inl rfl)

theorem survives_knownOffset (base : Scalar) (delta : Int) (wrapping : Bool) :
    Survives (contract p busy D) n Scalar.Below (knownOffset base delta wrapping) := by
  unfold knownOffset
  split
  · rename_i q
    refine .check (by grind) fun moved hmoved => ?_
    have hpure {k : Nat} : Survives (contract p busy D) k Scalar.Below
        (pure (.ptr moved) : Run Machine Scalar) := .pure fun _ _ => Pointer.below_offsetBy hmoved
    cases q with
    | symbolic => exact hpure
    | known id o =>
      cases wrapping with
      | true => exact hpure
      | false =>
        refine .getBind fun m _ _ => .check (by grind) fun a _ => ?_
        exact .guard (fun _ => .fail _ (.inl rfl)) fun _ => hpure
  · refine .guard (fun _ => .fail _ (.inl rfl)) fun _ => .check (by grind) fun x _ => ?_
    exact .pure fun _ _ => Scalar.below_ofNat _

theorem survives_offset (hc : c.Healthy n) (hcount : 1 < c.args.length) (wrapping : Bool) :
    Lasts (contract p busy D) n (offset c wrapping) := by
  refine .liftBind (spares_elemType hc (by omega)) fun ty hty => ?_
  have hmodest := modest_elemType hc hty
  refine .check (by grind) fun size _ => ?_
  refine survives_operands hc hcount fun k hk base count hbase hcount => ?_
  have hresult {i : Nat} (hi : k ≤ i) {v : Scalar} (hv : v.Below i) :
      Lasts (contract p busy D) i (c.result v) :=
    survives_result (hc.mono (hk.trans hi)) hv
  split
  · exact .fail _ (.inl rfl)
  · exact .fail _ (.inl rfl)
  · exact .bind (survives_symbolicOffset hbase hcount size) fun i hi v hv => hresult hi hv
  · exact .bind (survives_symbolicOffset hbase hcount size) fun i hi v hv => hresult hi hv
  · refine .check (by grind) fun x _ => ?_
    exact .bind (survives_knownOffset base _ wrapping) fun i hi v hv => hresult hi hv

/-! ## Reflection -/

theorem survives_valueExtent (hc : c.Healthy n) (hcount : 0 < c.args.length) :
    Lasts (contract p busy D) n (valueExtent c) := by
  refine .liftBind (spares_arg hcount) fun a ha => ?_
  have hty := (healthy_arg hc ha).ty
  extract_lets proceed
  have hproceed {ty : Ty} (hmodest : ty.Modest) : Lasts (contract p busy D) n (proceed ty) := by
    refine .check (by grind) fun sized hsized => ?_
    split
    · rename_i hyes
      rw [hyes] at hsized
      exact .lift (Ty.extends_none hmodest hsized).1 fun _ _ _ _ => trivial
    · split
      · exact .fail _ (.inl rfl)
      · exact .check (by grind) fun length _ => .lift (Ty.extends_some _ ty hmodest).1 fun _ _ _ _ => trivial
      · exact .fail _ (.inl rfl)
  split
  · rename_i htypes
    exact hproceed (hc.types _ (by simp [htypes]))
  · exact .check (by grind) fun ty hpointee => hproceed (hty.pointee hpointee)

theorem spares_nameBytes (h : t.isNamed = true ∨ D) : Spares D t.nameBytes := by
  unfold Ty.isNamed at h
  cases hbytes : t.nameBytes with
  | ok bytes => exact .ok bytes
  | error c =>
    rw [hbytes] at h
    exact fun _ _ => .inr (h.resolve_left Bool.false_ne_true)

theorem printable_nameBytes (h : t.isNamed) {bytes : List UInt8}
    (hbytes : t.nameBytes = .ok bytes) : Text.isPrintableInt bytes.length := by
  unfold Ty.isNamed at h
  simpa only [hbytes, Except.toOption, Option.any_some] using h

/-- The first type argument, if there is one, has a name. -/
theorem named_of_typeArg (h : c.typeArgs.head?.all Ty.isNamed) (ht : c.typeArg 0 = .ok t) :
    t.isNamed = true := by
  unfold typeArg at ht
  cases htypes : c.typeArgs with
  | nil =>
    rw [htypes] at ht
    cases ht
  | cons u us =>
    rw [htypes] at ht h
    cases ht
    exact h

theorem survives_typeName (h : c.typeArgs.head?.all Ty.isNamed = true ∨ D) :
    Lasts (contract p busy D) n (typeName c) := by
  refine .check (by grind) fun t ht => ?_
  have hnamed := h.imp_left fun h => named_of_typeArg h ht
  refine .liftBind (spares_nameBytes hnamed) fun bytes hbytes => ?_
  have hprintable := hnamed.imp_left fun h => printable_nameBytes h hbytes
  refine .bind (survives_onMemory (Memory.survives_allocateStatic ?_)) ?_
  · simpa only [List.length_map] using hprintable
  · rintro k hk _ ⟨id, rfl⟩
    split
    · exact survives_writePair _ (show (Scalar.ptr (.known id 0)).Below k from trivial)
        (Scalar.below_ofNat _) (show Ty.strRef.Modest from rfl) true
    · exact .done

theorem spares_identity (h : t.isNamed = true ∨ D) : Spares D t.identity :=
  .bind (spares_nameBytes h) fun _ _ => .ok _

/-- Apart from the fused operation, a function has a result for all numbers. -/
theorem spares_apply (kind : Kind) {args : List Scalar} (hcount : args.length = fn.arity)
    (h : (fn != .fma) = true ∨ D) : Spares D (fn.apply kind args) := by
  unfold FloatFn.apply
  split
  · exact fun _ _ => .inr (h.resolve_left (by simp))
  · exact .check (by grind) fun x _ => .check (by grind) fun y _ => .ok _
  · exact .check (by grind) fun x _ => .check (.map (Scalar.fails_toPattern (by grind) _)) fun y _ => .ok _
  · exact .check (by grind) fun x _ => .ok _
  · -- the arguments are as many as the function takes
    cases fn <;> cases hcount

theorem below_apply {kind : Kind} {args : List Scalar} {v : Scalar} (h : fn.apply kind args = .ok v) :
    v.Below n := by
  unfold FloatFn.apply at h
  split at h
  · obtain ⟨x, -, h⟩ := bind_iff.1 h
    obtain ⟨y, -, h⟩ := bind_iff.1 h
    obtain ⟨z, -, h⟩ := bind_iff.1 h
    unfold FloatFn.fused at h
    dsimp only at h
    split at h
    · cases h
      exact Scalar.below_ofNat _
    · cases h
  · obtain ⟨x, -, h⟩ := bind_iff.1 h
    obtain ⟨y, -, ⟨⟩⟩ := bind_iff.1 h
    exact Scalar.below_ofDouble _ _
  · obtain ⟨x, -, h⟩ := bind_iff.1 h
    obtain ⟨y, -, ⟨⟩⟩ := bind_iff.1 h
    exact Scalar.below_ofDouble _ _
  · obtain ⟨x, -, ⟨⟩⟩ := bind_iff.1 h
    exact Scalar.below_ofDouble _ _
  · cases h

theorem survives_floatMath (hc : c.Healthy n) (hcount : c.args.length = fn.arity)
    (h : (fn != .fma) = true ∨ D) (single : Bool) :
    Lasts (contract p busy D) n (floatMath c fn single) := by
  have hread : Survives (contract p busy D) n (fun k vs => ∀ v ∈ vs, v.Below k)
      (c.args.mapM readArg) :=
    .mapM (fun _ _ _ hle hv => hv.mono hle) fun a ha k hk => survives_readArg ((hc.args a ha).mono hk)
  have hlength : Yields (fun vs => vs.length = c.args.length) (c.args.mapM readArg) :=
    fun _ _ _ hvs => length_of_mapM hvs
  refine .bind (hread.yields hlength) fun k hk args hargs => ?_
  refine .guard (fun _ => .fail _ (.inl rfl)) fun _ => ?_
  split
  · exact survives_result (hc.mono hk) trivial
  · refine .liftBind (spares_apply _ (hargs.2.trans hcount) h) fun v hv => ?_
    exact survives_result (hc.mono hk) (below_apply hv)

/-! ## All intrinsics -/

theorem survives_assume (hc : c.Healthy n) (hcount : 0 < c.args.length) :
    Lasts (contract p busy D) n (do
      match ← c.prim 0 with
      | .cells list =>
        onStore do
          let s ← get
          Store.require (← s.truth (.cells list))
      | v => if !(← v.toBool) then Run.fail .assumptionFailed) := by
  refine .bind (survives_prim hc hcount) fun k _ v hv => ?_
  split
  · refine survives_onStore (.getBind fun s _ hs => ?_)
    exact .liftBind (Store.spares_truth (hv.mono hs)) fun c _ => Store.survives_require c
  · refine .check (by grind) fun yes _ => ?_
    split
    · exact .fail _ (.inl rfl)
    · exact .done

theorem survives_perform (hc : c.Healthy n) (hcount : c.args.length = c.intrinsic.arity)
    (h : c.intrinsic.isPlain c.typeArgs = true ∨ D) : Lasts (contract p busy D) n (perform c) := by
  -- the arguments were counted, so each intrinsic finds those that it reads
  have hlt {index : Nat} (hindex : index < c.intrinsic.arity) : index < c.args.length :=
    hcount ▸ hindex
  have hpass (hpos : 0 < c.args.length) : Lasts (contract p busy D) n
      (do c.result (← c.prim 0)) :=
    .bind (survives_prim hc hpos) fun k hk v hv => survives_result (hc.mono hk) hv
  obtain ⟨i, callee, args, dest, typeArgs⟩ := c
  cases i with
  | withOverflow op =>
    refine .bind (survives_overflowArith hc (hlt Nat.one_lt_two) op) ?_
    rintro k hk ⟨value, overflowed⟩ ⟨hvalue, hoverflowed⟩
    exact survives_resultPair (hc.mono hk) hvalue hoverflowed
  | overflowing op =>
    refine .bind (survives_overflowArith hc (hlt Nat.one_lt_two) op) fun k hk r hr => ?_
    exact survives_result (hc.mono hk) hr.1
  | exactDiv | fastAdd | fastSub | fastMul | fastDiv | fastRem =>
    exact survives_arith hc (hlt Nat.one_lt_two) _
  | countOnes | leadingZeros | trailingZeros =>
    exact survives_countBits hc (hlt Nat.zero_lt_one) _ _
  | swapBytes =>
    refine .liftBind (spares_kind hc (hlt Nat.zero_lt_one)) fun kind _ => ?_
    refine .bind (survives_prim hc (hlt Nat.zero_lt_one)) fun k hk v hv => ?_
    refine .check (by grind) fun w hw => ?_
    exact survives_result (hc.mono hk) (Operator.below_swapBytes hv hw)
  | load volatile =>
    refine .liftBind (spares_elemType hc (hlt Nat.zero_lt_one)) fun ty hty => ?_
    have hmodest := modest_elemType hc hty
    refine .bind (survives_pointer hc (hlt Nat.zero_lt_one)) fun i hi q _ => ?_
    refine .bind (survives_readScalar q hmodest) fun j hj v hv => ?_
    exact survives_result (hc.mono (hi.trans hj)) hv
  | store volatile =>
    refine .liftBind (spares_elemType hc (hlt Nat.zero_lt_two)) fun ty hty => ?_
    have hmodest := modest_elemType hc hty
    refine .bind (survives_pointer hc (hlt Nat.zero_lt_two)) fun i hi q _ => ?_
    refine .bind (survives_prim (hc.mono hi) (hlt Nat.one_lt_two)) fun j hj v hv => ?_
    exact survives_writeScalar q hv hmodest true
  | exchange => exact survives_exchange hc (hlt Nat.one_lt_two)
  | compareExchange => exact survives_compareExchange hc (hlt (Nat.lt_succ_self 2))
  | fetch op => exact survives_fetch hc (hlt Nat.one_lt_two) op
  | offset wrapping => exact survives_offset hc (hlt Nat.one_lt_two) wrapping
  | alignOffset => exact survives_resultUsize hc _
  | assume => exact survives_assume hc (hlt Nat.zero_lt_one)
  | copy overlapping => exact survives_copy hc (hlt (Nat.lt_succ_self 2))
  | writeBytes =>
    exact survives_writeBytes hc (hlt (Nat.lt_succ_self 2)) (h.resolve_left Bool.false_ne_true)
  | init =>
    cases dest with
    | none => exact .done
    | some d =>
      have hty := (hc.dest d rfl).ty
      refine .check (by grind) fun size hsize => ?_
      have hlt := (hty.size hsize).2
      exact survives_edit (Memory.rewrites_writeRepeat d.ptr (.known 0) size 1)
        (Memory.survives_writeRepeat d.ptr (Cell.below_replicate n 1 0) (.inl hlt) 1)
  | uninit =>
    cases dest with
    | none => exact .done
    | some d =>
      have hty := (hc.dest d rfl).ty
      refine .check (by grind) fun size hsize => ?_
      exact survives_edit (Memory.rewrites_markDefinedness d.ptr (hty.size hsize).1 false)
        (Memory.survives_markDefinedness d.ptr (hty.printable hsize) false)
  | moveValInit =>
    refine .bind (survives_pointer hc (hlt Nat.zero_lt_two)) fun k hk q _ => ?_
    refine .liftBind (spares_arg (hlt Nat.one_lt_two)) fun source hsource => ?_
    have hsource := healthy_arg hc hsource
    exact survives_writeValue q (hsource.value.mono hk) hsource.ty true
  | transmute => exact survives_transmute hc (hlt Nat.zero_lt_one)
  | sizeOf =>
    refine .check (by grind) fun t ht => ?_
    have hty := modest_typeArg hc ht
    exact .check (by grind) fun size _ => survives_resultUsize hc size
  | minAlignOf | prefAlignOf =>
    refine .check (by grind) fun t ht => ?_
    have hty := modest_typeArg hc ht
    exact .check (by grind) fun align _ => survives_resultUsize hc align
  | sizeOfVal | minAlignOfVal | alignOfVal =>
    exact .bind (survives_valueExtent hc (hlt Nat.zero_lt_one)) fun k hk r _ =>
      survives_resultUsize (hc.mono hk) _
  | typeName => exact survives_typeName h
  | typeId =>
    refine .check (by grind) fun t ht => ?_
    refine .liftBind (spares_identity (h.imp_left fun h => named_of_typeArg h ht)) fun x _ => ?_
    exact survives_result hc (Scalar.below_ofNat x)
  | needsDrop => exact .check (by grind) fun t _ => survives_result hc (Scalar.below_ofBool _)
  | floatMath fn single => exact survives_floatMath hc hcount h single
  | likely | unlikely => exact hpass (hlt Nat.zero_lt_one)
  | fence | forget => exact .done
  | breakpoint => exact .fail _ (.inl rfl)

theorem survives_callIntrinsic (hc : c.Healthy n) (h : c.intrinsic.isPlain c.typeArgs = true ∨ D) :
    Lasts (contract p busy D) n (callIntrinsic c) := by
  unfold callIntrinsic
  exact .guard (fun _ => .fail _ (.inr rfl)) fun hcount => survives_perform hc (not_not.1 hcount) h

end SymExec.Machine

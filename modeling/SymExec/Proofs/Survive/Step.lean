import SymExec.Proofs.Lookup
import SymExec.Proofs.Survive.Intrinsic

/-!
# Steps that do not die

A step of a healthy machine of a resolved program leaves it healthy. If the instruction that it carries
out is plain, it does not die: it returns or raises an error of the path (`Machine.Healthy.step`).
-/
namespace SymExec.Machine

open Run IntrinsicCall List

variable {p : Program} {busy D : Prop} {n : Nat}
variable {c : Call} {v : Scalar} {args : List Arg} {dest : Option PlaceRef}

/-- Both of two conditions hold, unless it may die. -/
theorem both_or {a b : Bool} (h : (a && b) = true ∨ D) : (a = true ∨ D) ∧ (b = true ∨ D) :=
  ⟨h.imp_left fun h => (Bool.and_eq_true_iff.1 h).1, h.imp_left fun h => (Bool.and_eq_true_iff.1 h).2⟩

/-! ## Statements -/

theorem survives_castValue {source dest : Ty} (hsource : source.Modest) (hdest : dest.Modest)
    (hv : v.Below n) : Survives (contract p busy D) n Scalar.Below (castValue v source dest) := by
  unfold castValue
  rw [hsource.nameFault?_eq_none, hdest.nameFault?_eq_none]
  exact survives_onStore (Cast.survives_cast hsource hdest hv)

theorem survives_castTo {dest : PlaceRef} (hdest : dest.Healthy n) {source : Arg}
    (hsource : source.Healthy n)
    (hwhole : (∀ x, source.value = .one x → source.ty.isFat ≠ .ok true) ∨ D) :
    Lasts (contract p busy D) n (castTo dest source) := by
  have hvalue := hsource.value
  have hmodest := hsource.ty
  have hty := hdest.ty
  refine .check (by grind) fun fat _ => ?_
  split
  · refine .check (by grind) fun sourceFat _ => ?_
    split
    · exact survives_writeValue dest.ptr hvalue hdest.ty true
    · refine .check (by grind) fun pointee _ => ?_
      split
      · refine .bind (survives_readArg hsource) fun k _ data hdata => ?_
        exact survives_writePair dest.ptr hdata (Scalar.below_ofInt _) hdest.ty true
      · refine .fail _ (.of_shown ?_)
        simp [EvalError.shown, Shown.fault?, hmodest.nameFault?_eq_none, hty.nameFault?_eq_none]
  · refine .check (by grind) fun sourceFat hfat => ?_
    split
    · rename_i hyes
      rw [hyes] at hfat
      extract_lets proceed
      have hproceed {k : Nat} {data : Scalar} (hdata : data.Below k) :
          Lasts (contract p busy D) k (proceed data) := by
        have hbytes : (Ty.rawPtr .u8 false).Modest := rfl
        refine .bind (survives_castValue hbytes hty hdata) fun i _ v hv => ?_
        exact survives_writeScalar dest.ptr hv hdest.ty true
      cases hv : source.value with
      | pair data length =>
        rw [hv] at hvalue
        exact hproceed hvalue.1
      | inMemory q =>
        exact .bind (survives_readPair q hmodest) fun k _ r hr => hproceed hr.1
      -- a number in place of such a pointer has no data pointer to cast
      | one x => exact .throw (.inr (hwhole.resolve_left fun h => h x hv hfat))
    · refine .bind (survives_readArg hsource) fun k _ v hv => ?_
      refine .bind (survives_castValue hmodest hty hv) fun i _ w hw => ?_
      exact survives_writeScalar dest.ptr hw hdest.ty true

theorem fair_shiftKind (op : BinOp) {rhs : Arg} (hrhs : rhs.ty.Modest) :
    Fails EvalError.Fair (shiftKind op rhs) := by
  unfold shiftKind
  split
  · exact .andThen (Ty.fair_kind hrhs) fun _ => .pure _
  · exact .ok _

theorem rhsKind_of_shiftKind {op : BinOp} {rhs : Arg} {kind : Option Kind}
    (h : shiftKind op rhs = .ok kind) : op.isShift = true ∨ kind = none := by
  unfold shiftKind at h
  split at h
  · exact .inl ‹_›
  · cases h
    exact .inr rfl

/-- The two operands of an operator, and what is known of them. -/
theorem survives_binaryOperands {α : Type} {Q : Nat → α → Prop} (hp : p.Modest) {op : BinOp}
    {lhs rhs : Operand} (hlhs : lhs.isPlain = true ∨ D) (hrhs : rhs.isPlain = true ∨ D)
    (htypes : ∀ t ∈ lhs.types ++ rhs.types, t.Modest)
    {f : Scalar → Scalar → Kind → Option Kind → Run Machine α}
    (hf : ∀ k, n ≤ k → ∀ (a b : Scalar) (kind : Kind) (rhsKind : Option Kind), a.Below k → b.Below k →
      op.isShift = true ∨ rhsKind = none → Survives (contract p True D) k Q (f a b kind rhsKind)) :
    Survives (contract p True D) n Q (do
      let lhs ← evalOperand lhs
      let rhs ← evalOperand rhs
      let rhsKind ← shiftKind op rhs
      let a ← readArg lhs
      let b ← readArg rhs
      let kind ← lhs.ty.kind
      f a b kind rhsKind) := by
  refine .bind (survives_evalOperand hp hlhs fun t ht => htypes t (mem_append_left _ ht)) ?_
  intro i hi x hx
  refine .bind (survives_evalOperand hp hrhs fun t ht => htypes t (mem_append_right _ ht)) ?_
  intro j hj y hy
  refine .check (fair_shiftKind op hy.ty) fun rhsKind hkind => ?_
  refine .bind (survives_readArg (hx.mono hj)) fun k hk a ha => ?_
  refine .bind (survives_readArg (hy.mono hk)) fun l hl b hb => ?_
  refine .check (Ty.fair_kind hx.ty) fun kind _ => ?_
  exact hf l (((hi.trans hj).trans hk).trans hl) a b kind rhsKind (ha.mono hl) hb
    (rhsKind_of_shiftKind hkind)

theorem survives_assign (hp : p.Modest) {place : Place} (hplace : place.isPlain = true ∨ D)
    {rvalue : Rvalue} (hrvalue : rvalue.isPlain = true ∨ D) (htypes : ∀ t ∈ rvalue.types, t.Modest) :
    Lasts (contract p True D) n (assign place rvalue) := by
  refine .bind (survives_evalPlace hp hplace) fun k hk dest hdest => ?_
  cases rvalue with
  | use operand =>
    refine .bind (survives_evalOperand hp hrvalue htypes) fun i _ arg harg => ?_
    exact survives_writeValue dest.ptr harg.value hdest.ty true
  | binary op lhs rhs =>
    obtain ⟨hlhs, hrhs⟩ := both_or hrvalue
    refine survives_binaryOperands hp hlhs hrhs htypes fun i _ a b kind rhsKind ha hb hkind => ?_
    refine .bind (survives_onStore (Operator.survives_binary ha hb kind hkind)) fun j _ v hv => ?_
    exact survives_writeScalar dest.ptr hv hdest.ty true
  | checked op lhs rhs =>
    obtain ⟨hlhs, hrhs⟩ := both_or hrvalue
    refine survives_binaryOperands hp hlhs hrhs htypes fun i _ a b kind rhsKind ha hb hkind => ?_
    refine .bind (survives_onStore (Operator.survives_overflowing ha hb kind hkind)) ?_
    rintro j - ⟨v, overflowed⟩ ⟨hv, hoverflowed⟩
    exact survives_writePair dest.ptr hv hoverflowed hdest.ty true
  | unary op operand =>
    refine .bind (survives_evalOperand hp hrvalue htypes) fun i _ arg harg => ?_
    refine .bind (survives_readArg harg) fun j _ v hv => ?_
    refine .check (Ty.fair_kind harg.ty) fun kind _ => ?_
    refine .bind (survives_onStore (Operator.survives_unary op hv kind)) fun l _ w hw => ?_
    exact survives_writeScalar dest.ptr hw hdest.ty true
  | cast operand ty =>
    obtain ⟨hoperand, hwhole⟩ := both_or hrvalue
    have heval : Survives (contract p True D) k (fun k a => a.Healthy k) (evalOperand operand) :=
      survives_evalOperand hp hoperand fun t ht => htypes t (mem_append_left _ ht)
    rcases hwhole with hwhole | hD
    · refine .bind (heval.yields (yields_evalOperand hwhole)) fun i hi arg harg => ?_
      exact survives_castTo (hdest.mono hi) harg.1 (.inl harg.2)
    · exact .bind heval fun i hi arg harg => survives_castTo (hdest.mono hi) harg (.inr hD)
  | ref place mutable =>
    refine .bind (survives_evalPlace hp hrvalue) fun i _ ref href => ?_
    refine .check (Ty.fair_isSized href.ty) fun sized hsized => ?_
    split
    · exact survives_writeScalar dest.ptr (show (Scalar.ptr ref.ptr).Below i from href.ptr) hdest.ty true
    · rename_i hnot
      -- a reference to an unsized place takes the length of the place, which is there
      have hunsized : ref.ty.Unsized := by rw [Ty.Unsized, hsized, Bool.eq_false_iff.2 hnot]
      cases hlength : ref.length with
      | some length =>
        exact survives_writePair dest.ptr (show (Scalar.ptr ref.ptr).Below i from href.ptr)
          (href.length length hlength) hdest.ty true
      | none => exact absurd hunsized (href.sized hlength)
  | len place =>
    refine .bind (survives_evalPlace hp hrvalue) fun i _ ref href => ?_
    have hlength := href.length
    split
    · exact survives_writeScalar dest.ptr (Scalar.below_ofInt _) hdest.ty true
    · rename_i hsome
      exact survives_writeScalar dest.ptr (hlength _ hsome) hdest.ty true
    · rename_i hsome
      exact survives_writeScalar dest.ptr (hlength _ hsome) hdest.ty true
    · exact .fail _ (href.ty.fair rfl)

theorem survives_stepStatement (hp : p.Modest) {s : Statement} (hs : s.isPlain = true ∨ D)
    (htypes : ∀ t ∈ s.types, t.Modest) : Lasts (contract p True D) n (stepStatement s) := by
  have hnext {k : Nat} : Lasts (contract p True D) k (do
      changeFrame fun f => { f with stmt := f.stmt + 1 }
      pure StepResult.advance) :=
    .bind (survives_changeFrame fun _ hf => ⟨hf.function, hf.locals, hf.sized⟩) fun _ _ _ _ =>
      .done
  cases s with
  | assign place rvalue =>
    obtain ⟨hplace, hrvalue⟩ := both_or hs
    exact .bind (survives_assign hp hplace hrvalue htypes) fun _ _ _ _ => hnext
  | nop => exact hnext

/-! ## Branches -/

theorem survives_advance (target : Int) : Lasts (contract p busy D) n (do
      goto target
      pure StepResult.advance) :=
  .bind (survives_goto target) fun _ _ _ _ => .done

theorem survives_switchOn (hv : v.Below n) (kind : Kind) (values targets : List Int) (otherwise : Int) :
    Lasts (contract p busy D) n (switchOn v kind values targets otherwise) := by
  unfold switchOn
  split
  · rename_i cells
    refine .getBind fun m _ hn => ?_
    have hequals (x : Int) {k : Nat} : Lasts (contract p busy D) k
        (liftM (m.memory.store.equals (.cells cells) x kind)) :=
      .lift (Store.spares_equals (hv.mono hn) x kind) fun _ _ _ _ => trivial
    refine .bind (.mapM (fun _ _ _ _ h => h) fun x _ _ _ => hequals x) fun _ _ equals _ => ?_
    exact .done
  · exact .check (by grind) fun word _ => survives_advance _

theorem survives_assertOn (hv : v.Below n) (expected : Bool) (target : Int) {message : Json}
    (hmessage : message.isPrintable) :
    Lasts (contract p busy D) n (assertOn v expected target message) := by
  unfold assertOn
  split
  · refine .getBind fun m _ hn => ?_
    refine .liftBind (Store.spares_truth (hv.mono hn)) fun holds _ => ?_
    exact .done
  · refine .check (by grind) fun yes _ => .guard (fun _ => .fail _ (.of_printable hmessage rfl)) fun _ => ?_
    exact survives_advance target

/-! ## Calls -/

theorem survives_panicMessage (args : List Arg) :
    Survives (contract p busy D) n (fun _ message => message.isPrintable = true) (panicMessage args) := by
  unfold panicMessage
  dsimp only
  split
  · rename_i count _ _
    have hcount : Text.isPrintableInt (count.setWidth 64).toNat :=
      Text.isPrintableInt_of_lt (by have := (count.setWidth 64).isLt; omega)
    refine .getBind fun m _ _ => .check (Memory.fair_readBytes _ _ hcount 1) fun cells _ => ?_
    split
    · exact .pure fun _ _ => rfl
    · exact .pure fun _ _ => rfl
  · exact .pure fun _ _ => rfl

theorem survives_performBuiltin {b : Builtin} (hargs : ∀ a ∈ args, a.Healthy n)
    (hcount : ∀ k ∈ b.arity?, args.length = k) (hdest : ∀ d ∈ dest, d.Healthy n) {typeArgs : List Ty}
    (htypes : ∀ t ∈ typeArgs, t.Modest) :
    Lasts (contract p busy D) n (performBuiltin b args dest typeArgs) := by
  cases b with
  | panic =>
    exact .bind (survives_panicMessage _) fun _ _ message hmessage =>
      .fail _ (.of_printable hmessage rfl)
  | alloc =>
    obtain ⟨size, align, rfl⟩ := length_eq_two.1 (hcount 2 rfl)
    refine .bind (survives_readArg (hargs size (by simp))) fun i hi sizeValue _ => ?_
    refine .bind (survives_readArg ((hargs align (by simp)).mono hi)) fun j hj alignValue _ => ?_
    refine .check (by grind) fun bytes hbytes => .check (by grind) fun alignment _ => ?_
    refine .bind (survives_onMemory (Memory.survives_allocate (Int.natCast_nonneg bytes)
      (.inl (Scalar.printable_toU64 hbytes)) _ _)) ?_
    rintro k - _ ⟨id, rfl⟩
    cases dest with
    | none => exact .done
    | some d =>
      exact survives_writeScalar d.ptr (show (Scalar.ptr (.known id 0)).Below k from trivial)
        (hdest d rfl).ty true
  | dealloc =>
    obtain ⟨q, size, rfl⟩ := length_eq_two.1 (hcount 2 rfl)
    refine .bind (survives_readArg (hargs q (by simp))) fun i hi v _ => .check (by grind) fun ptr _ => ?_
    refine .bind (survives_readArg ((hargs size (by simp)).mono hi)) fun j _ w _ => ?_
    refine .check (by grind) fun bytes _ => .getBind fun m _ _ => .check (by grind) fun a _ => ?_
    refine .guard (fun _ => .fail _ (.inl rfl)) fun _ => ?_
    exact survives_onMemory (Memory.survives_deallocate ptr .heap)
  | makeSymbolic =>
    obtain ⟨target, rfl⟩ := length_eq_one_iff.1 (hcount 1 rfl)
    have htarget := hargs target (by simp)
    have hsymbolic {ty : Ty} (hty : ty.Modest) : Lasts (contract p busy D) n (do
        let p ← (← readArg target).toPtr
        let size ← ty.size
        onMemory (Memory.makeSymbolic p size)) := by
      refine .bind (survives_readArg htarget) fun i _ v _ => ?_
      refine .check (by grind) fun ptr _ => .check (by grind) fun size hsize => ?_
      have hprintable : Text.isPrintableInt size.toNat := by
        rw [Int.toNat_of_nonneg (hty.size hsize).1]
        exact hty.printable hsize
      exact survives_edit (Memory.rewrites_makeSymbolic ptr size)
        (Memory.survives_makeSymbolic ptr hprintable)
    cases typeArgs with
    | nil => exact .check (Ty.fair_pointee htarget.ty) fun ty hty => hsymbolic (htarget.ty.pointee hty)
    | cons ty rest => exact hsymbolic (htypes ty mem_cons_self)

theorem survives_callBuiltin {b : Builtin} (hargs : ∀ a ∈ args, a.Healthy n)
    (hdest : ∀ d ∈ dest, d.Healthy n) {typeArgs : List Ty} (htypes : ∀ t ∈ typeArgs, t.Modest) :
    Lasts (contract p busy D) n (callBuiltin b args dest typeArgs) := by
  unfold callBuiltin
  cases harity : b.arity? with
  | none => exact survives_performBuiltin hargs (by simp [harity]) hdest htypes
  | some expected =>
    refine .guard (fun _ => .fail _ (.inr rfl)) fun hcount => ?_
    exact survives_performBuiltin hargs (by simpa [harity] using hcount) hdest htypes

/-- What the name of a function is the same as is a name. -/
theorem isName_of_sameName {a b : Json} (h : a.sameName b) : b.isName := by
  cases b with
  | arr | obj => cases a <;> simp [Json.sameName, Json.dyadic?] at h
  | null | bool | int | float | str => rfl

theorem isName_of_resolved (h : c.Resolved p) : c.callee.isName := by
  obtain ⟨arity, harity, -⟩ := h
  unfold Loader.calleeArity at harity
  cases hfind : p.find? c.callee with
  | some f =>
    exact isName_of_sameName (find?_some (p := fun f : Function => f.name.sameName c.callee) hfind)
  | none =>
    rw [hfind] at harity
    cases hcallee : c.callee with
    | str => rfl
    | null | bool | int | float | arr | obj =>
      rw [hcallee] at harity
      cases harity

theorem survives_callOther (hresolved : c.Resolved p) (hnone : p.find? c.callee = none)
    (hc : c.calleeIsPlain = true ∨ D) (hargs : ∀ a ∈ args, a.Healthy n)
    (hdest : ∀ d ∈ dest, d.Healthy n) (htypes : ∀ t ∈ c.typeArgs, t.Modest) :
    Lasts (contract p busy D) n (callOther c args dest) := by
  obtain ⟨arity, harity, -⟩ := hresolved
  unfold Loader.calleeArity at harity
  rw [hnone] at harity
  cases hbuiltin : Builtin.ofName? c.callee with
  | some b =>
    rw [callOther_of_builtin hbuiltin]
    exact survives_callBuiltin hargs hdest htypes
  | none =>
    unfold callOther
    -- the loader has refused all other callees
    rw [hbuiltin] at harity ⊢
    cases hcallee : c.callee with
    | str name =>
      dsimp only
      unfold Call.calleeIsPlain at hc
      rw [hcallee] at hc
      dsimp only at hc
      cases hintrinsic : Intrinsic.ofName? name with
      | none => exact .fail _ (.inl rfl)
      | some intrinsic =>
        rw [hintrinsic] at hc
        exact survives_callIntrinsic ⟨hargs, hdest, htypes⟩ hc
    | null | bool | int | float | arr | obj =>
      rw [hcallee] at harity
      cases harity

theorem survives_afterCall (hcallee : c.callee.isPrintable) : Lasts (contract p busy D) n (afterCall c) := by
  unfold afterCall
  cases c.target with
  | some target => exact survives_advance target
  | none =>
    exact .bind (Q := fun _ _ => True) (.fail _ (.of_printable hcallee rfl)) fun _ _ _ _ => .done

/-- Apart from the functions of the program, what is called has a text for a name. -/
theorem printable_callee (hresolved : c.Resolved p) (hnone : p.find? c.callee = none) :
    c.callee.isPrintable = true := by
  obtain ⟨arity, harity, -⟩ := hresolved
  unfold Loader.calleeArity at harity
  rw [hnone] at harity
  cases hcallee : c.callee with
  | str => rfl
  | null | bool | int | float | arr | obj =>
    rw [hcallee] at harity
    cases harity

theorem survives_evalCall (hp : p.Modest) (hargs : c.args.all Operand.isPlain = true ∨ D)
    (hdest : c.dest.all Place.isPlain = true ∨ D) (htypes : ∀ t ∈ c.types, t.Modest) :
    Survives (contract p True D) n (fun k found => (∀ a ∈ found.1, a.Healthy k) ∧
      ∀ d ∈ found.2, d.Healthy k) (evalCall c) := by
  have hoperands : Survives (contract p True D) n (fun k args => ∀ a ∈ args, Arg.Healthy k a)
      (c.args.mapM evalOperand) := by
    refine .mapM (fun i j a hle ha => ha.mono hle) fun o ho k _ => ?_
    refine survives_evalOperand hp (hargs.imp_left fun h => all_eq_true.1 h o ho) fun t ht => ?_
    exact htypes t (mem_append_left _ (mem_flatMap.2 ⟨o, ho, ht⟩))
  refine .bind hoperands fun i _ args hi => ?_
  have hplace : Survives (contract p True D) i (fun k dest => ∀ d ∈ dest, PlaceRef.Healthy k d)
      (c.dest.mapM evalPlace) := by
    refine .mapOption (fun i j d hle hd => hd.mono hle) fun q hq => survives_evalPlace hp ?_
    exact hdest.imp_left fun h => (Option.all_eq_true _ _).1 h q hq
  refine .bind hplace fun j hj dest hd => .pure fun k hk => ?_
  exact ⟨fun a ha => (hi a ha).mono (hj.trans hk), fun d h => (hd d h).mono hk⟩

theorem survives_call (hp : p.Modest) (hresolved : c.Resolved p) (hc : c.isPlain p = true ∨ D)
    (htypes : ∀ t ∈ c.types, t.Modest) : Lasts (contract p True D) n (call c) := by
  obtain ⟨hplaces, hcallee⟩ := both_or hc
  obtain ⟨hargs, hdest⟩ := both_or hplaces
  unfold call
  refine .bind (survives_evalCall hp hargs hdest htypes) ?_
  rintro i - ⟨args, dest⟩ ⟨ha, hd⟩
  unfold callWith
  rw [isName_of_resolved hresolved]
  refine .getBind fun m hm hn => ?_
  rw [hm.program]
  have ha : ∀ a ∈ args, a.Healthy _ := fun a h => (ha a h).mono hn
  cases hfind : p.find? c.callee with
  | some function =>
    have hfunction := mem_of_find?_eq_some hfind
    refine .bind (survives_pushFrame hp hfunction ha _ _) fun _ _ _ _ => ?_
    exact .done
  | none =>
    rw [hfind] at hcallee
    refine .bind (survives_callOther hresolved hfind hcallee ha (fun d h => (hd d h).mono hn)
      fun t ht => htypes t (mem_append_right _ ht)) fun _ _ _ _ => ?_
    exact survives_afterCall (printable_callee hresolved hfind)

/-! ## Returns -/

theorem survives_handOver {f : Frame} (hty : f.function.returnTy.Modest) :
    Lasts (contract p busy D) n (handOver f) := by
  unfold handOver
  split
  · rename_i q result _ _ _
    refine .check (by grind) fun size hsize => ?_
    split
    · exact survives_copyAt result q (by omega) (hty.printable hsize) 1
    · exact .done
  · exact .done

theorem survives_freeLocals (locals : List Pointer) :
    Lasts (contract p busy D) n (freeLocals locals) := by
  induction locals generalizing n with
  | nil => exact .done
  | cons q locals ih =>
    rw [freeLocals_cons]
    exact .bind (survives_onMemory (Memory.survives_deallocate q .stack)) fun _ _ _ _ => ih

theorem survives_resume {f : Frame} (hname : f.function.name.isPrintable) :
    Lasts (contract p False D) n (resume f) := by
  refine .bind (.modify fun m hm hn => ?_) fun k _ _ _ => .getBind fun m _ _ => ?_
  · exact ⟨⟨hm.program, hm.steps, hm.frames, hm.memory,
      fun g hg => hm.stack g (mem_of_mem_drop hg), False.elim⟩, Nat.le_refl _⟩
  split
  · exact .done
  · cases f.returnTarget with
    | some target => exact survives_advance target
    | none =>
      exact .bind (Q := fun _ _ => True) (.fail _ (.of_printable hname rfl)) fun _ _ _ _ => .done

/-! ## Steps -/

/-- From a machine, the action leaves a healthy one, or raises an error of the path or dies if it
may. -/
structure Endures (p : Program) (D : Prop) (act : Run Machine StepResult) (m : Machine) : Prop where
  ok : ∀ {r m'}, act m = .ok r m' → m'.Healthy p False
  error : ∀ {c m'}, act m = .error c m' → c.IsLocal ∨ D

variable {m : Machine} {f : Frame} {rest : List Frame}

theorem Healthy.idle (hm : m.Healthy p busy) : m.Healthy p False :=
  ⟨hm.program, hm.steps, hm.frames, hm.memory, hm.stack, False.elim⟩

theorem Endures.congr {act act' : Run Machine StepResult} {m' : Machine} (h : act m = act' m')
    (hact' : Endures p D act' m') : Endures p D act m where
  ok hok := hact'.ok (h ▸ hok)
  error herror := hact'.error (h ▸ herror)

theorem Endures.of_survives {act : Run Machine StepResult}
    (h : Lasts (contract p busy D) 0 act) (hm : m.Healthy p busy) :
    Endures p D act m where
  ok hok := (h.ok hm (Nat.zero_le _) hok).1.idle
  error herror := h.error hm (Nat.zero_le _) herror

/-- After the last return no frame is left. -/
theorem endures_ret (hp : p.Modest) (hm : m.Healthy p False) (hstack : m.stack = f :: rest) :
    Endures p D ret m := by
  have hfunction := (hm.stack f (by simp [hstack])).function
  have hty : f.function.returnTy.Modest := by
    unfold Function.returnTy
    cases hlocals : f.function.locals with
    | nil => rfl
    | cons t ts => exact modest_of_function hp hfunction (mem_append_left _ (by simp [hlocals]))
  -- the frame is gone afterwards, so nothing here may rely on a machine that is busy
  have hret : Lasts (contract p False D) 0 (do
      handOver f
      freeLocals f.locals
      resume f) :=
    .bind (survives_handOver hty) fun _ _ _ _ => .bind (survives_freeLocals f.locals) fun _ _ _ _ =>
      survives_resume (hp.name hfunction)
  have hrun : ret m = (do
      handOver f
      freeLocals f.locals
      resume f : Run Machine StepResult) m := by
    rw [ret, bind_of_ok (frame_of_stack hstack)]
  exact .congr hrun (.of_survives hret hm)

theorem endures_terminate (hp : p.Modest) (hm : m.Healthy p True) {function : Function} {b : Block}
    (hb : b.Resolved p function) (hplain : b.terminator.isPlain p = true ∨ D)
    (htypes : ∀ t ∈ b.terminator.types, t.Modest)
    (hshown : ∀ message ∈ b.terminator.message?, message.isPrintable = true) :
    Endures p D (terminate b.terminator) m := by
  cases hterm : b.terminator with
  | switch discr values targets otherwise =>
    rw [hterm] at hplain htypes
    refine .of_survives (.bind (survives_evalOperand hp hplain htypes) fun i _ arg harg => ?_) hm
    refine .bind (survives_readArg harg) fun j _ v hv => ?_
    refine .check (Ty.fair_kind harg.ty) fun kind _ => ?_
    exact survives_switchOn hv kind values targets otherwise
  | assert cond expected target message =>
    rw [hterm] at hplain htypes hshown
    refine .of_survives (.bind (survives_evalOperand hp hplain htypes) fun i _ arg harg => ?_) hm
    exact .bind (survives_readArg harg) fun j _ v hv =>
      survives_assertOn hv expected target (hshown message rfl)
  | call c =>
    rw [hterm] at hplain htypes
    exact .of_survives (survives_call hp (hb.call c hterm) hplain htypes) hm
  | ret =>
    obtain ⟨f, rest, hstack⟩ := exists_cons_of_ne_nil (hm.busy trivial)
    exact endures_ret hp hm.idle hstack
  | goto target => exact .of_survives (survives_advance target) hm
  | abort | unreachable => exact .of_survives (.fail _ (.inl rfl)) hm

theorem endures_stepFrame (hp : p.Modest) (hm : m.Healthy p False) (hstack : m.stack = f :: rest)
    (hresolved : FrameResolved p f) (hplain : f.isPlain p = true ∨ D) :
    Endures p D (stepFrame f) m := by
  have hbusy : m.Healthy p True :=
    ⟨hm.program, hm.steps, hm.frames, hm.memory, hm.stack, fun _ => by simp [hstack]⟩
  have hfunction := (hm.stack f (by simp [hstack])).function
  obtain ⟨b, hblock⟩ := hresolved.blockOf
  have htypes : ∀ t ∈ b.types, t.Modest := fun t ht => modest_of_function hp hfunction
    (mem_append_right _ (mem_flatMap.2 ⟨b, mem_of_blockOf hblock, ht⟩))
  unfold Frame.isPlain at hplain
  rw [hblock] at hplain
  dsimp only at hplain
  cases hstmt : b.statements[f.stmt]? with
  | some s =>
    rw [hstmt] at hplain
    rw [stepFrame_of_statement hblock hstmt]
    refine .of_survives (survives_stepStatement hp hplain fun t ht => htypes t ?_) hbusy
    exact mem_append_left _ (mem_flatMap.2 ⟨s, mem_of_getElem? hstmt, ht⟩)
  | none =>
    rw [hstmt] at hplain
    rw [stepFrame_of_terminator hblock hstmt]
    exact endures_terminate hp hbusy (hresolved.resolved hblock) hplain
      (fun t ht => htypes t (mem_append_right _ ht))
      fun message hm => hp.message hfunction (mem_of_blockOf hblock) hm

theorem Healthy.attempt (hp : p.Modest) (hm : m.Healthy p False) (hresolved : m.Resolved p)
    (hreport : (∀ e ∈ m.pending, e.Fair) ∨ D) (hplain : m.isPlain = true ∨ D) :
    Endures p D attempt m := by
  cases hpending : m.pending with
  | some e =>
    have hattempt := attempt_of_pending hpending
    refine ⟨fun hok => ?_, fun herror => ?_⟩
    · rw [hattempt] at hok
      cases hok
    · rw [hattempt] at herror
      cases herror
      exact hreport.imp_left fun h => ⟨e, rfl, h e hpending⟩
  | none =>
    cases hstack : m.stack with
    | nil =>
      exact .congr (attempt_of_empty hpending hstack) (.of_survives (.done) hm)
    | cons f rest =>
      have hcounted : m.counted.Healthy p False :=
        ⟨hm.program, hm.steps, hm.frames, hm.memory, hm.stack, hm.busy⟩
      have hstep := attempt_of_frame hpending hstack
      by_cases hlimit : m.limits.steps < ↑(m.steps + 1)
      · rw [if_pos hlimit] at hstep
        exact .congr hstep (.of_survives (.failReporting (by simpa using hm.steps) (.inl rfl)) hcounted)
      · rw [if_neg hlimit] at hstep
        refine .congr hstep (endures_stepFrame hp hcounted hstack (hresolved.frames f ?_) ?_)
        · simp [hstack]
        · simpa [Machine.isPlain, hstack, hm.program] using hplain

/-- A step of a healthy machine leaves a healthy one, and does not die if the instruction is plain. -/
theorem Healthy.step (hp : p.Modest) (hm : m.Healthy p False) (hresolved : m.Resolved p)
    (hreport : (∀ e ∈ m.pending, e.Fair) ∨ D) (hplain : m.isPlain = true ∨ D) : Endures p D step m := by
  have hattempt := hm.attempt hp hresolved hreport hplain
  refine ⟨fun hok => hattempt.ok (written_eq_ok.1 hok), fun herror => ?_⟩
  obtain ⟨c, hfails, rfl⟩ := written_eq_error.1 herror
  refine (hattempt.error hfails).imp_left ?_
  rintro ⟨e, rfl, hfair⟩
  -- a resolved program finds what it looks for, and all other messages can be written
  have hfault : e.fault? = none := hfair.resolve_right (by simp [hresolved.attempt hfails])
  exact ⟨e, written_eq_local.2 ⟨rfl, hfault⟩, hfair⟩

end SymExec.Machine

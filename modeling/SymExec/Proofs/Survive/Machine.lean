import SymExec.Proofs.Plain
import SymExec.Proofs.Survive.Memory
import SymExec.Proofs.Survive.Ty

/-!
# Machines that do not die: places, operands and calls

A machine is healthy if its memory is, if its limits can be put into words, and if its frames are frames
of functions of the program whose locals are all sized. A place that has no length is then no unsized
one: a local is sized, and an unsized part of a place is reached through a pointer that has the length.

If the types of the program are modest, no size is negative or too large to be written out.
-/
namespace SymExec

open Run Section List Memory

variable {i j : Nat} {r : PlaceRef}

/-- A place of bytes that exist. An unsized place has a length. -/
structure PlaceRef.Healthy (n : Nat) (r : PlaceRef) : Prop where
  ptr : r.ptr.Below n
  ty : r.ty.Modest
  length : ∀ v ∈ r.length, v.Below n
  sized : r.length = none → ¬ r.ty.Unsized

theorem PlaceRef.Healthy.mono (h : r.Healthy i) (hle : i ≤ j) : r.Healthy j :=
  ⟨h.ptr.mono hle, h.ty, fun v hv => (h.length v hv).mono hle, h.sized⟩

/-- An operand of bytes that exist. -/
structure Arg.Healthy (n : Nat) (a : Arg) : Prop where
  value : a.value.Below n
  ty : a.ty.Modest

theorem Arg.Healthy.mono {a : Arg} (h : a.Healthy i) (hle : i ≤ j) : a.Healthy j :=
  ⟨h.value.mono hle, h.ty⟩

structure Frame.Healthy (p : Program) (f : Frame) : Prop where
  function : f.function ∈ p.functions
  locals : ∀ q ∈ f.locals, q.Below 0
  sized : ∀ t ∈ f.function.locals, ¬ t.Unsized

namespace Machine

variable {pointee ty : Ty} {index : Int} {value : Json}
  {t : Ty} {size : Int} {v : Scalar} {operand : Operand} {ref : PlaceRef}
variable (q : Pointer)

/-- A machine whose steps do not die. A busy one has a frame. -/
structure Healthy (p : Program) (busy : Prop) (m : Machine) : Prop where
  program : m.program = p
  steps : Text.isPrintableInt m.limits.steps = true
  frames : Text.isPrintableInt m.limits.frames = true
  memory : m.memory.Healthy
  stack : ∀ f ∈ m.stack, f.Healthy p
  busy : busy → m.stack ≠ []

def contract (p : Program) (busy D : Prop) : Contract Machine :=
  ⟨Healthy p busy, fun m => m.memory.store.size, D⟩

variable {p : Program} {busy D : Prop} {n : Nat} {α : Type} {Q : Nat → α → Prop}

/-! ## Memory and store -/

theorem survives_onMemory {act : Run Memory α} (h : Survives (Memory.contract D) n Q act) :
    Survives (contract p busy D) n Q (onMemory act) where
  ok {m m' a} hm hn hok := by
    unfold onMemory at hok
    split at hok
    · rename_i hact
      cases hok
      obtain ⟨hmemory, hle, ha⟩ := h.ok hm.memory hn hact
      exact ⟨⟨hm.program, hm.steps, hm.frames, hmemory, hm.stack, hm.busy⟩, hle, ha⟩
    · cases hok
  error {m m' c} hm hn herror := by
    unfold onMemory at herror
    split at herror
    · cases herror
    · rename_i hact
      cases herror
      exact h.error hm.memory hn hact

theorem survives_edit {act : Run Memory α} (hrewrites : Keeps Memory.Rewrites act)
    (h : Survives (scope D) n Q act) : Survives (contract p busy D) n Q (onMemory act) :=
  survives_onMemory (survives_of_scope (maintains_of_rewrites hrewrites) h)

theorem survives_onStore {act : Run Store α} (h : Survives (Store.contract D) n Q act) :
    Survives (contract p busy D) n Q (onStore act) :=
  survives_edit (Memory.rewrites_onStore act) (Memory.survives_onStore h)

theorem survives_writeAt (hv : v.Below n) (hsize : 0 ≤ size)
    (hprintable : Text.isPrintableInt size) (align : Int) :
    Lasts (contract p busy D) n (onMemory (Memory.writeScalar q v size align)) :=
  survives_edit (rewrites_writeScalar q v hsize align)
    (survives_writeScalar q hv hsize hprintable align)

theorem survives_copyAt (source dest : Pointer) (hsize : 0 ≤ size)
    (hprintable : Text.isPrintableInt size) (align : Int) :
    Lasts (contract p busy D) n
      (onMemory (copyBytes source dest size align)) :=
  survives_edit (rewrites_copyBytes source dest hsize align)
    (survives_copyBytes source dest hprintable align)

/-! ## Typed access -/

theorem survives_readScalar (hty : ty.Modest) :
    Survives (contract p busy D) n Scalar.Below (readScalar q ty) := by
  refine .check (by grind) fun size hsize => .check (by grind) fun kind _ => ?_
  refine .check (by grind) fun align _ => .getBind fun m hm _ => ?_
  exact .liftError (fair_readScalar _ q (hty.printable hsize) kind align) fun v hv k hk =>
    (below_readScalar hm.memory.bytes hv).mono hk

/-- The alignment of an access, which may be waived. -/
theorem survives_align (hty : ty.Modest) {aligned : Bool} {f : Nat → Run Machine α}
    (h : ∀ align, Survives (contract p busy D) n Q (f align)) :
    Survives (contract p busy D) n Q
      (if aligned = true then liftM ty.align >>= f else EStateM.Result.ok 1 >>= f) := by
  split
  · exact .check (by grind) fun align _ => h align
  · exact h 1

theorem survives_writeScalar (hv : v.Below n) (hty : ty.Modest) (aligned : Bool) :
    Lasts (contract p busy D) n (writeScalar q v ty aligned) :=
  .check (by grind) fun _ hsize => survives_align hty fun align =>
    survives_writeAt q hv (hty.size hsize).1 (hty.printable hsize) align

theorem pairFields_modest (hty : ty.Modest) {fields : (Ty × Int) × (Ty × Int)}
    (h : pairFields ty = .ok fields) : fields.1.1.Modest ∧ fields.2.1.Modest := by
  unfold pairFields at h
  split at h
  · rename_i a b hfields
    obtain ⟨offsets, -, h⟩ := bind_iff.1 h
    split at h
    · cases h
      exact ⟨hty.fields hfields (by simp), hty.fields hfields (by simp)⟩
    · cases h
  · cases h

theorem fair_pairFields (hty : ty.Modest) : Fails EvalError.Fair (pairFields ty) := by
  unfold pairFields
  split
  · rename_i a b hfields
    refine .andThen (Ty.fair_offsets fun t ht => hty.fields hfields ht) fun offsets => ?_
    split
    · exact .pure _
    · exact .error (hty.fair rfl)
  · exact .error (hty.fair rfl)

theorem isPrintableInt_pointerSize : Text.isPrintableInt pointerSize :=
  Text.isPrintableInt_of_lt (by decide)

theorem survives_readPair (hty : ty.Modest) :
    Survives (contract p busy D) n (fun k r => r.1.Below k ∧ r.2.Below k) (readPair q ty) := by
  refine .check (by grind) fun fat _ => ?_
  split
  · have hfair (m : Memory) (q : Pointer) (kind : Kind) :=
      fair_readScalar m q isPrintableInt_pointerSize kind pointerSize
    refine .getBind fun m hm _ => .check (hfair _ _ _) fun data hdata => ?_
    have hdata := below_readScalar hm.memory.bytes hdata
    refine .getBind fun m' hm' hle => .check (by grind) fun next _ =>
      .check (hfair _ _ _) fun length hlength => ?_
    have hlength := below_readScalar hm'.memory.bytes hlength
    exact .pure fun k hk => ⟨hdata.mono (hle.trans hk), hlength.mono hk⟩
  · refine .check (fair_pairFields hty) ?_
    rintro ⟨⟨a, x⟩, b, y⟩ hfields
    obtain ⟨ha, hb⟩ := pairFields_modest hty hfields
    refine .check (by grind) fun first _ => .bind (survives_readScalar first ha) fun i _ v hv => ?_
    refine .check (by grind) fun second _ => .bind (survives_readScalar second hb) fun j hj w hw => ?_
    exact .pure fun k hk => ⟨hv.mono (hj.trans hk), hw.mono hk⟩

theorem survives_writePair {first second : Scalar} (hfirst : first.Below n)
    (hsecond : second.Below n) (hty : ty.Modest) (aligned : Bool) :
    Lasts (contract p busy D) n (writePair q first second ty aligned) := by
  refine .check (by grind) fun fat _ => ?_
  split
  · have hsize : (0 : Int) ≤ pointerSize := Int.natCast_nonneg _
    have hprintable := isPrintableInt_pointerSize
    refine .bind (survives_writeAt q hfirst hsize hprintable _) fun k hk _ _ => ?_
    exact .check (by grind) fun next _ => survives_writeAt next (hsecond.mono hk) hsize hprintable _
  · refine .check (fair_pairFields hty) ?_
    rintro ⟨⟨a, x⟩, b, y⟩ hfields
    obtain ⟨ha, hb⟩ := pairFields_modest hty hfields
    refine .check (by grind) fun start _ => ?_
    refine .bind (survives_writeScalar start hfirst ha aligned) fun k hk _ _ => ?_
    exact .check (by grind) fun next _ => survives_writeScalar next (hsecond.mono hk) hb aligned

theorem survives_writeValue {v : Value} (hv : v.Below n) (hty : ty.Modest) (aligned : Bool) :
    Lasts (contract p busy D) n (writeValue q v ty aligned) := by
  refine .check (by grind) fun size hsize => ?_
  cases v with
  | inMemory source =>
    exact survives_align hty fun align =>
      survives_copyAt source q (hty.size hsize).1 (hty.printable hsize) align
  | pair first second =>
    dsimp only
    split
    · exact survives_writePair q hv.1 hv.2 hty aligned
    · exact .done
  | one v =>
    dsimp only
    split
    · exact survives_writeScalar q hv hty aligned
    · exact .done

theorem survives_readArg {arg : Arg} (h : arg.Healthy n) :
    Survives (contract p busy D) n Scalar.Below (readArg arg) := by
  have hvalue := h.value
  unfold readArg
  cases hv : arg.value with
  | one v =>
    rw [hv] at hvalue
    exact .pure fun k hk => Scalar.Below.mono hk hvalue
  | inMemory q => exact survives_readScalar q h.ty
  | pair first second => exact .fail _ (h.ty.fair rfl)

/-! ## Places -/

theorem modest_of_function (hp : p.Modest) {f : Function} (hf : f ∈ p.functions) (ht : t ∈ f.types) :
    t.Modest := hp.types t (mem_flatMap.2 ⟨f, hf, ht⟩)

theorem fair_localAt (f : Frame) (index : Int) : Fails EvalError.Fair (localAt f index) := by
  unfold localAt
  split
  · split
    · exact .ok _
    · exact .error (.inr rfl)
  · exact .error (.inr rfl)

theorem localAt_healthy (hp : p.Modest) {f : Frame} (hf : f.Healthy p) {r : Pointer × Ty}
    (h : localAt f index = .ok r) : (PlaceRef.mk r.1 r.2 none).Healthy n := by
  unfold localAt at h
  split at h
  · rename_i q ty hq hty
    split at h
    · cases h
      have hmem := mem_of_item? hty
      refine ⟨(hf.locals q (mem_of_item? hq)).mono (Nat.zero_le n), ?_, by simp, fun _ => ?_⟩
      · exact modest_of_function hp hf.function (mem_append_left _ hmem)
      · exact hf.sized ty hmem
    · cases h
  · cases h

theorem element_healthy (href : ref.Healthy n) (h : element ref index = .ok r) : r.Healthy n := by
  unfold element at h
  extract_lets proceed at h
  have hproceed {elem : Ty} {length : Int} (helem : elem.Modest)
      (h : proceed (elem, length) = .ok r) : r.Healthy n := by
    dsimp only [proceed] at h
    split at h
    · cases h
    · obtain ⟨size, hsize, h⟩ := bind_iff.1 h
      obtain ⟨q, hq, ⟨⟩⟩ := bind_iff.1 h
      exact ⟨Pointer.below_offsetBy hq, helem, by simp, fun _ => Ty.not_unsized_of_size hsize⟩
  have hty := href.ty
  split at h
  · rename_i heq
    rw [heq] at hty
    exact hproceed hty.elem h
  · rename_i heq
    rw [heq] at hty
    obtain ⟨length, -, h⟩ := bind_iff.1 h
    exact hproceed hty.sliceElem h
  · cases h

theorem Scalar.toU64_lt {x : Nat} (h : v.toU64 = .ok x) : x < 2 ^ 64 := by
  cases v with
  | bits pattern =>
    cases h
    exact (pattern.setWidth 64).isLt
  | ptr | undef | cells => cases h

theorem Scalar.printable_toU64 {x : Nat} (h : v.toU64 = .ok x) : Text.isPrintableInt x := by
  have hlt := toU64_lt h
  exact Text.isPrintableInt_of_lt (by omega)

theorem fair_knownLength (length : Option Scalar) : Fails EvalError.Fair (knownLength length) := by
  unfold knownLength
  split
  · exact .error (.inl rfl)
  · exact .error (.inl rfl)
  · exact Scalar.fails_toU64 EvalError.admitsBare_fair _

theorem printable_knownLength {length : Option Scalar} {x : Nat} (h : knownLength length = .ok x) :
    Text.isPrintableInt x = true := by
  unfold knownLength at h
  split at h
  · cases h
  · cases h
  · exact Scalar.printable_toU64 h

theorem fair_element (href : ref.Healthy n) (hindex : Text.isPrintableInt index) :
    Fails EvalError.Fair (element ref index) := by
  unfold element
  extract_lets proceed
  have hproceed {elem : Ty} {length : Int} (helem : elem.Modest)
      (hlength : Text.isPrintableInt length) : Fails EvalError.Fair (proceed (elem, length)) := by
    refine .guard (.error (.of_shown ?_)) fun _ => ?_
    · simp [EvalError.shown, Shown.fault?, Json.isPrintable, hlength, hindex]
    · have hsize := Ty.fair_size helem
      grind -ring -linarith
  have hty := href.ty
  split
  · rename_i heq
    rw [heq] at hty
    exact hproceed hty.elem hty.length
  · rename_i heq
    rw [heq] at hty
    cases hknown : knownLength ref.length with
    | error e => exact .error (fair_knownLength _ e hknown)
    | ok length => exact hproceed hty.sliceElem (printable_knownLength hknown)
  · exact .error (hty.fair rfl)

theorem spares_element (href : ref.Healthy n) (hindex : Text.isPrintableInt index = true ∨ D) :
    Spares D (EvalError.lift (element ref index)) := by
  rcases hindex with hindex | hdie
  · exact .lift (fair_element href hindex)
  · exact fun _ _ => .inr hdie

theorem fieldOf_healthy (href : ref.Healthy n) (h : fieldOf ref index = .ok r) : r.Healthy n := by
  unfold fieldOf at h
  split at h
  · cases h
  · rename_i fields hfields
    dsimp only at h
    split at h
    · cases h
    · obtain ⟨offsets, hoffsets, h⟩ := bind_iff.1 h
      have hoffsets := lift_eq_ok.1 hoffsets
      split at h
      · rename_i hty
        obtain ⟨q, hq, ⟨⟩⟩ := bind_iff.1 h
        have hmem := mem_of_item? hty
        refine ⟨Pointer.below_offsetBy (lift_eq_ok.1 hq), href.ty.fields hfields hmem,
          href.length, fun hnone => ?_⟩
        exact Ty.not_unsized_of_field hfields (href.sized hnone) hoffsets hmem
      · cases h

/-- A field that is counted from the first one is there, or is refused. -/
theorem spares_fieldOf (href : ref.Healthy n)
    (hindex : (0 ≤ index ∧ Text.isPrintableInt index = true) ∨ D) : Spares D (fieldOf ref index) := by
  unfold fieldOf
  cases hfields : ref.ty.fields? with
  | none => exact .error (href.ty.fair rfl)
  | some fields =>
    dsimp only
    split
    · rcases hindex with ⟨-, hprintable⟩ | hdie
      · refine .error (.of_shown ?_)
        simp [EvalError.shown, Shown.fault?, Json.isPrintable, hprintable, href.ty.nameFault?_eq_none]
      · exact fun _ _ => .inr hdie
    · rename_i hlength
      refine .check (Ty.fair_offsets fun t ht => href.ty.fields hfields ht) fun offsets hoffsets => ?_
      obtain ⟨whole, hwhole, ⟨⟩⟩ := bind_iff.1 hoffsets
      have hoffset := Ty.length_of_place hwhole
      split
      · exact .check (by grind) fun q _ => .ok _
      · rename_i hmissing
        -- the index is less than the number of fields: only a negative one misses them
        refine fun c _ => .inr (hindex.resolve_left fun h => ?_)
        have hnonneg := h.1
        have hlt : index.toNat < fields.length := by omega
        refine hmissing (whole.1[index.toNat]) (fields[index.toNat]) ?_ ?_
        · rw [item?, if_pos hnonneg, getElem?_eq_getElem]
        · rw [item?, if_pos hnonneg, getElem?_eq_getElem]

theorem survives_deref (href : ref.Healthy n) :
    Survives (contract p busy D) n (fun k r => r.Healthy k) (deref ref) := by
  have hmodest := href.ty
  refine .check (by grind) fun pointee hpointee => .check (by grind) fun fat hfat => ?_
  have hty := href.ty.pointee hpointee
  split
  · refine .bind (survives_readPair ref.ptr hmodest) ?_
    rintro k - ⟨data, length⟩ ⟨hdata, hlength⟩
    refine .check (by grind) fun q hq => .pure fun i hi => PlaceRef.Healthy.mono ?_ hi
    exact ⟨Scalar.below_toPtr hdata hq, hty, by simpa using hlength, by simp⟩
  · rename_i hthin
    refine .bind (survives_readScalar ref.ptr hmodest) fun k _ data hdata => ?_
    refine .check (by grind) fun q hq => .pure fun i hi => PlaceRef.Healthy.mono ?_ hi
    -- a pointer that has no length points to a sized type
    refine ⟨Scalar.below_toPtr hdata hq, hty, by simp, fun _ hunsized => hthin ?_⟩
    exact Except.ok.inj (hfat.symm.trans (Ty.isFat_of_unsized hpointee hunsized))

theorem survives_project (f : Frame) (href : ref.Healthy n) {step : Projection}
    (hstep : step.isPlain = true ∨ D) :
    Survives (contract p busy D) n (fun k r => r.Healthy k) (project f ref step) := by
  have helement {index : Int} (hindex : Text.isPrintableInt index = true ∨ D) {k : Nat} (hk : n ≤ k) :
      Survives (contract p busy D) k (fun k r => r.Healthy k)
        (liftM (element ref index) : Run Machine PlaceRef) :=
    .lift (spares_element href hindex) fun r hr i hi =>
      (element_healthy href (lift_eq_ok.1 hr)).mono (hk.trans hi)
  cases step with
  | deref => exact survives_deref href
  | field index =>
    refine .lift (spares_fieldOf href (hstep.imp_left fun h => ?_)) fun r hr k hk =>
      (fieldOf_healthy href hr).mono hk
    simpa [Projection.isPlain] using h
  | constIndex index => exact helement hstep (Nat.le_refl n)
  | index base =>
    refine .check (fair_localAt f base) ?_
    rintro ⟨q, ty⟩ -
    refine .bind (survives_readScalar q (show Ty.usize.Modest from rfl)) fun k hk v _ => ?_
    split
    · exact .fail _ (.inl rfl)
    · exact .check (by grind) fun index hindex => helement (.inl (Scalar.printable_toU64 hindex)) hk

theorem survives_frame : Survives (contract p True D) n (fun _ f => f.Healthy p) frame := by
  refine .getBind fun m hm _ => ?_
  cases hstack : m.stack with
  | nil => exact absurd hstack (hm.busy trivial)
  | cons f rest => exact .pure fun _ _ => hm.stack f (by simp [hstack])

theorem survives_evalPlace (hp : p.Modest) {place : Place} (hplace : place.isPlain = true ∨ D) :
    Survives (contract p True D) n (fun k r => r.Healthy k) (evalPlace place) := by
  refine .bind survives_frame fun k _ f hf => .check (fair_localAt f place.base) ?_
  rintro ⟨q, ty⟩ hlocal
  refine .foldlM (localAt_healthy hp hf hlocal) (fun step hstep i _ ref href => ?_)
    fun i j r hle hr => hr.mono hle
  exact survives_project f href (hplace.imp_left fun h => all_eq_true.1 h step hstep)

/-! ## Operands -/

theorem spares_of_isOk {e : Except Failure α} (h : e.isOk = true ∨ D) : Spares D e := by
  cases e with
  | ok a => exact .ok a
  | error c => exact fun _ _ => .inr (h.resolve_left (by simp [Except.isOk, Except.toBool]))

def emptyValue (ty : Ty) : Run Machine Value := do
  if (← ty.layout).size = some 0 then return .one .undef
  Run.fail (.constantType ty)

/-- A constant of a pointer type is text or a number; no other value is one. -/
theorem evalConstant_of_pointer (h : ty.pointee? = some pointee) (value : Json) :
    (∃ s, pointee = .str ∧ value = .str s) ∨
    (∃ x, evalConstant value ty = pure (.one (.bits x)) ∧
      ((Operand.constant value ty).isWhole = true → ty.isThin = true)) ∨
    evalConstant value ty = emptyValue ty := by
  cases ty with
  | rawPtr inner m =>
    cases h
    cases value with
    | str s =>
      cases pointee with
      | str => exact .inl ⟨s, rfl, rfl⟩
      | _ => exact .inr (.inr rfl)
    | int x | bool b => exact .inr (.inl ⟨_, by cases pointee <;> rfl, id⟩)
    | _ => exact .inr (.inr (by cases pointee <;> rfl))
  | ref inner m =>
    cases h
    cases value with
    | str s =>
      cases pointee with
      | str => exact .inl ⟨s, rfl, rfl⟩
      | _ => exact .inr (.inr rfl)
    | _ => exact .inr (.inr (by cases pointee <;> rfl))
  | _ => cases h

theorem survives_emptyValue (hty : ty.Modest) :
    Survives (contract p busy D) n Value.Below (emptyValue ty) := by
  refine .check (by grind) fun l _ => ?_
  split
  · exact .pure fun _ _ => trivial
  · exact .fail _ (hty.fair rfl)

/-- Text is held by memory of its own. -/
theorem survives_text {s : String} (hty : ty.pointee? = some .str)
    (h : (Json.str s).readsAs ty = true ∨ D) :
    Survives (contract p busy D) n Value.Below (evalConstant (.str s) ty) := by
  simp only [Json.readsAs, hty] at h
  simp only [evalConstant, hty]
  cases hbytes : Text.encode s with
  | error e =>
    rw [hbytes] at h
    exact .liftBind (fun _ _ => .inr (h.resolve_left Bool.false_ne_true)) (by rintro _ ⟨⟩)
  | ok bytes =>
    rw [hbytes] at h
    refine .liftBind (.ok bytes) ?_
    rintro _ ⟨⟩
    refine .bind (survives_onMemory (Memory.survives_allocateStatic ?_)) ?_
    · simpa only [length_map, Except.toOption, Option.any_some] using h
    · rintro k - _ ⟨id, rfl⟩
      exact .pure fun _ _ => ⟨trivial, trivial⟩

theorem survives_pointerConstant (hty : ty.pointee? = some pointee) (hmodest : ty.Modest)
    (h : value.readsAs ty = true ∨ D) :
    Survives (contract p busy D) n Value.Below (evalConstant value ty) := by
  obtain ⟨s, rfl, rfl⟩ | ⟨x, hx, -⟩ | hempty := evalConstant_of_pointer hty value
  · exact survives_text hty h
  · rw [hx]
    exact .pure fun _ _ => trivial
  · rw [hempty]
    exact survives_emptyValue hmodest

theorem survives_evalConstant (hmodest : ty.Modest) (h : value.readsAs ty = true ∨ D) :
    Survives (contract p busy D) n Value.Below (evalConstant value ty) := by
  cases ty with
  | bool => exact .pure fun _ _ => trivial
  | char =>
    cases value with
    | str s =>
      unfold evalConstant
      dsimp only [Ty.pointee?]
      split
      · exact .pure fun _ _ => trivial
      · rename_i hnot
        refine .throw (.inr (h.resolve_left fun hlength => ?_))
        obtain ⟨c, hc⟩ := length_eq_one_iff.1 (of_decide_eq_true hlength)
        exact hnot c hc
    | _ => exact .liftBind (spares_of_isOk h) fun _ _ => .pure fun _ _ => trivial
  | int w signed pointerSized =>
    exact .liftBind (spares_of_isOk h) fun _ _ => .pure fun _ _ => trivial
  | f32 | f64 =>
    exact .liftBind (spares_of_isOk h) fun _ _ => .pure fun _ _ => Scalar.below_ofDouble _ _
  | rawPtr pointee m =>
    exact survives_pointerConstant (show (Ty.rawPtr pointee m).pointee? = some pointee from rfl) hmodest h
  | ref pointee m =>
    exact survives_pointerConstant (show (Ty.ref pointee m).pointee? = some pointee from rfl) hmodest h
  | fnPtr | slice | str | array | tuple | struct => exact survives_emptyValue hmodest

theorem survives_evalOperand (hp : p.Modest) (hoperand : operand.isPlain = true ∨ D)
    (htypes : ∀ t ∈ operand.types, t.Modest) :
    Survives (contract p True D) n (fun k a => a.Healthy k) (evalOperand operand) := by
  cases operand with
  | constant value ty =>
    have hty := htypes ty (mem_singleton_self ty)
    exact .bind (survives_evalConstant hty hoperand) fun k _ v hv => .pure fun i hi => ⟨hv.mono hi, hty⟩
  | copy place =>
    refine .bind (survives_evalPlace hp hoperand) fun k _ ref href => ?_
    have hty := href.ty
    refine .check (by grind) fun fat _ => ?_
    split
    · refine .bind (survives_readPair ref.ptr href.ty) ?_
      rintro i - ⟨data, length⟩ hpair
      exact .pure fun j hj => ⟨Value.Below.mono hpair hj, href.ty⟩
    · refine .check (by grind) fun primitive _ => ?_
      split
      · refine .bind (survives_readScalar ref.ptr href.ty) fun i _ v hv => ?_
        exact .pure fun j hj => ⟨Scalar.Below.mono hj hv, href.ty⟩
      · exact .pure fun j hj => ⟨href.ptr.mono hj, href.ty⟩

theorem pointer_size_ne_zero (h : ty.pointee? = some pointee) {l : Ty.Layout} (hl : ty.layout = .ok l) :
    l.size ≠ some 0 := by
  have hpointer (i : Ty.Layout) : i.pointer.size ≠ some 0 := by
    unfold Ty.Layout.pointer
    split <;> simp [pointerSize]
  cases ty with
  | rawPtr inner m | ref inner m =>
    unfold Ty.layout at hl
    obtain ⟨i, -, ⟨⟩⟩ := bind_iff.1 hl
    exact hpointer i
  | _ => cases h

theorem isFat_of_isThin (h : t.isThin) : t.isFat ≠ .ok true := by
  intro hfat
  unfold Ty.isThin at h
  rw [hfat] at h
  cases h

/-- A single value of a pointer type with a length can only be a number. -/
theorem yields_evalConstant (h : (Operand.constant value ty).isWhole) :
    Yields (fun v => ∀ x, v = .one x → ty.isFat ≠ .ok true) (evalConstant value ty) := by
  cases hpointee : ty.pointee? with
  | none =>
    intro m v m' _ x _ hfat
    unfold Ty.isFat at hfat
    rw [hpointee] at hfat
    cases hfat
  | some pointee =>
    intro m v m' hv
    obtain ⟨s, rfl, rfl⟩ | ⟨x, -, hthin⟩ | hempty := evalConstant_of_pointer hpointee value
    · unfold evalConstant at hv
      rw [hpointee] at hv
      obtain ⟨bytes, m1, -, hv⟩ := bind_eq_ok.1 hv
      obtain ⟨q, m2, -, ⟨⟩⟩ := bind_eq_ok.1 hv
      rintro x ⟨⟩
    · exact fun _ _ => isFat_of_isThin (hthin h)
    · rw [hempty] at hv
      obtain ⟨l, m1, hl, hv⟩ := bind_eq_ok.1 hv
      split at hv
      · rename_i hzero
        exact absurd hzero (pointer_size_ne_zero hpointee (Returns.liftError ⟨_, _, hl⟩))
      · cases hv

theorem yields_evalOperand (h : operand.isWhole) :
    Yields (fun a => ∀ x, a.value = .one x → a.ty.isFat ≠ .ok true) (evalOperand operand) := by
  cases operand with
  | constant value ty =>
    intro m a m' ha
    obtain ⟨v, m1, hv, ⟨⟩⟩ := bind_eq_ok.1 ha
    exact yields_evalConstant h _ _ _ hv
  | copy place =>
    intro m a m' ha
    obtain ⟨ref, m1, -, ha⟩ := bind_eq_ok.1 ha
    obtain ⟨fat, m2, hfat, ha⟩ := bind_eq_ok.1 ha
    have hfat := Returns.liftError ⟨_, _, hfat⟩
    split at ha
    · obtain ⟨pair, m3, -, ⟨⟩⟩ := bind_eq_ok.1 ha
      rintro x ⟨⟩
    · rename_i hthin
      have hthin : ref.ty.isFat ≠ .ok true := by
        rw [hfat]
        exact fun hok => hthin (Except.ok.inj hok)
      obtain ⟨primitive, m3, -, ha⟩ := bind_eq_ok.1 ha
      split at ha
      · obtain ⟨v, m4, -, ⟨⟩⟩ := bind_eq_ok.1 ha
        exact fun _ _ => hthin
      · cases ha
        rintro x ⟨⟩

/-! ## Frames -/

theorem survives_changeFrame {g : Frame → Frame} (hg : ∀ f : Frame, f.Healthy p → (g f).Healthy p) :
    Lasts (contract p busy D) n (changeFrame g) := by
  refine .modify fun m hm hn => ?_
  cases hstack : m.stack with
  | nil => exact ⟨hm, Nat.le_refl _⟩
  | cons f rest =>
    have hall := hm.stack
    rw [hstack] at hall
    refine ⟨⟨hm.program, hm.steps, hm.frames, hm.memory, fun x hx => ?_, by simp⟩, Nat.le_refl _⟩
    rcases mem_cons.1 hx with rfl | hx
    · exact hg f (hall f mem_cons_self)
    · exact hall x (mem_cons_of_mem f hx)

theorem survives_goto (block : Int) : Lasts (contract p busy D) n (goto block) :=
  survives_changeFrame fun _ hf => ⟨hf.function, hf.locals, hf.sized⟩

/-- The locals of a frame are sized, for they were allocated. -/
theorem survives_allocateLocals {types : List Ty} (htypes : ∀ t ∈ types, t.Modest) :
    Survives (contract p busy D) n (fun _ locals => (∀ q ∈ locals, q.Below 0) ∧
      ∀ t ∈ types, ¬ t.Unsized) (allocateLocals types) := by
  induction types generalizing n with
  | nil => exact .pure (by simp)
  | cons t types ih =>
    have ht := htypes t mem_cons_self
    unfold allocateLocals
    rw [mapM_cons]
    refine .bind (Q := fun _ q => q.Below 0 ∧ ¬ t.Unsized) ?_ ?_
    · refine .check (by grind) fun size hsize => ?_
      refine .bind (Q := fun _ _ => True) (.check (by grind) fun _ _ => .done)
        fun _ _ align _ => ?_
      have hnonneg := (ht.size hsize).1
      refine (survives_onMemory (Memory.survives_allocate hnonneg (.inl (ht.printable hsize)) _ _)).imp ?_
      rintro k - _ ⟨id, rfl⟩
      exact ⟨trivial, Ty.not_unsized_of_size hsize⟩
    · intro k _ q hq
      refine .bind (ih fun u hu => htypes u (mem_cons_of_mem t hu)) fun i _ locals hlocals => ?_
      refine .pure fun _ _ => ⟨forall_mem_cons.2 ⟨hq.1, hlocals.1⟩, ?_⟩
      exact forall_mem_cons.2 ⟨hq.2, hlocals.2⟩

theorem survives_passArgs {args : List (Arg × Pointer × Ty)}
    (hargs : ∀ x ∈ args, x.1.Healthy n ∧ x.2.2.Modest) :
    Lasts (contract p busy D) n (passArgs args) := by
  refine .bind (.forIn ?_) fun _ _ _ _ => .done
  rintro ⟨arg, q, ty⟩ hx k hk
  obtain ⟨harg, hty⟩ := hargs _ hx
  exact .bind (survives_writeValue q (harg.value.mono hk) hty true) fun _ _ _ _ =>
    .done

theorem survives_pushFrame (hp : p.Modest) {function : Function} (hfunction : function ∈ p.functions)
    {args : List Arg} (hargs : ∀ a ∈ args, a.Healthy n) (returnPtr : Option Pointer)
    (returnTarget : Option Int) : Lasts (contract p busy D) n
      (pushFrame function args returnPtr returnTarget) := by
  have htypes : ∀ t ∈ function.locals, t.Modest := fun t ht =>
    modest_of_function hp hfunction (mem_append_left _ ht)
  refine .getBind fun m hm hn => ?_
  refine .guard (fun _ => .failReporting (by simpa using hm.frames) (.inl rfl)) fun _ => ?_
  refine .guard (fun _ => .fail _ (.inr rfl)) fun _ => ?_
  refine .bind (survives_allocateLocals htypes) fun k hk locals hlocals => ?_
  have hframe : Frame.Healthy p ⟨function, locals, 0, 0, returnPtr, returnTarget⟩ :=
    ⟨hfunction, hlocals.1, hlocals.2⟩
  -- the arguments were found before the locals were allocated, and stay known while memory grows
  refine .bind (.modify fun m hm hn => ?_) fun i hi _ _ => survives_passArgs ?_
  · exact ⟨⟨hm.program, hm.steps, hm.frames, hm.memory, forall_mem_cons.2 ⟨hframe, hm.stack⟩,
      by simp⟩, Nat.le_refl _⟩
  · rintro ⟨arg, q, ty⟩ hx
    obtain ⟨harg, hx⟩ := of_mem_zip hx
    exact ⟨(hargs arg harg).mono ((hn.trans hk).trans hi),
      htypes ty (of_mem_zip (mem_of_mem_drop hx)).2⟩

end Machine
end SymExec

import SymExec.Proofs.Path

/-!
# The errors that a step can raise

`Run.Raises E act` says that all errors of the path that a computation raises are in `E`. As with
changes of the state, that follows from the parts of a computation: the lemmas for the parts are
tagged, and there is one lemma for each larger function that a step is made of. Nothing in them is arithmetic,
so `grind` goes without its solvers for rings and orders. The errors that say that a path has no input
are raised by none of them (`Machine.raises_stepFrame`).
-/
namespace SymExec

/-- Whether an error is one that many places raise. The others tell of a block or a local that is not
there, of a wrong number of arguments, and of a path without inputs. -/
def EvalError.isCommon : EvalError → Bool
  | noBlock _ _ | noLocal _ _ | arity _ _ _ | unsatisfiable | noBranch => false
  | _ => true

/-- Whether an error tells of a block or a local that is not there, or of a wrong number of
arguments. -/
def EvalError.isLookup : EvalError → Bool
  | noBlock _ _ | noLocal _ _ | arity _ _ _ => true
  | _ => false

attribute [grind =] EvalError.isCommon EvalError.shown

namespace Run

variable {σ α : Type}

/-- A failure is an error in `E`, or not one of the path. -/
def Within (E : EvalError → Prop) : Failure → Prop
  | .error e => E e
  | _ => True

def Raises (E : EvalError → Prop) (act : Run σ α) : Prop :=
  ∀ s c s', act s = .error c s' → Within E c

def Admits (E : EvalError → Prop) : Prop := ∀ e, e.isCommon = true → E e

/-- The common errors that show nothing of the program are in `E`. -/
def AdmitsBare (E : EvalError → Prop) : Prop := ∀ e, e.isCommon = true → e.shown = [] → E e

@[grind →] theorem Admits.bare {E : EvalError → Prop} (hE : Admits E) : AdmitsBare E :=
  fun e he _ => hE e he

/-- All errors are in `E` but those of a path without inputs. -/
def AdmitsFeasible (E : EvalError → Prop) : Prop := ∀ e, e.kind ≠ .infeasiblePath → E e

@[grind →] theorem AdmitsFeasible.admits {E : EvalError → Prop} (hE : AdmitsFeasible E) :
    Admits E := by
  intro e he
  refine hE e ?_
  cases e <;> simp_all [EvalError.isCommon, EvalError.kind]

namespace Within

variable {E : EvalError → Prop}

@[grind ←] theorem common (hE : Admits E) {e : EvalError} (h : e.isCommon) :
    Within E (.error e) := hE e h

@[grind ←] theorem numeral (e : Text.NumeralError) : Within E (.numeral e) := trivial

@[grind ←] theorem crash : Within E .crash := trivial

@[grind ←] theorem unwritable (fault : Unwritable) : Within E fault.failure := by
  cases fault <;> trivial

end Within
end Run

open Run

/-! ## Checks -/

namespace Fails

variable {ε α β : Type} {P : ε → Prop} {E : EvalError → Prop}

attribute [grind ←] ok pure

@[grind ←] theorem common (hE : Admits E) {e : EvalError} (h : e.isCommon) :
    Fails E (.error e : Except EvalError α) := error (hE e h)

@[grind ←] theorem bare (hE : AdmitsBare E) {e : EvalError} (h : e.isCommon)
    (hshown : e.shown = []) : Fails E (.error e : Except EvalError α) := error (hE e h hshown)

@[grind ←] theorem throwBare (hE : AdmitsBare E) {e : EvalError} (h : e.isCommon)
    (hshown : e.shown = []) : Fails E (throw e : Except EvalError α) := error (hE e h hshown)

@[grind ←] theorem throwCommon (hE : Admits E) {e : EvalError} (h : e.isCommon) :
    Fails E (throw e : Except EvalError α) := error (hE e h)

@[grind ←] theorem failure {c : Failure} (h : Within E c) :
    Fails (Within E) (.error c : Except Failure α) := error h

@[grind ←] theorem throwFailure {c : Failure} (h : Within E c) :
    Fails (Within E) (throw c : Except Failure α) := error h

@[grind ←] theorem andThen {x : Except ε α} {f : α → Except ε β} (hx : Fails P x)
    (hf : ∀ a, Fails P (f a)) : Fails P (x >>= f) := bind hx fun a _ => hf a

theorem guard {p : Prop} [Decidable p] {check : Except ε PUnit} {rest : PUnit → Except ε α}
    (h : Fails P check) (hrest : ∀ u, Fails P (rest u)) :
    Fails P (if p then check >>= rest else rest ⟨⟩) := by
  split
  · exact andThen h hrest
  · exact hrest ⟨⟩

@[grind ←] theorem map {x : Except ε α} {f : α → β} (hx : Fails P x) : Fails P (x.map f) := by
  cases x with
  | ok a => exact ok _
  | error e => exact fun _ h => hx _ (by cases h; rfl)

/-- A check of the path as a check that may fail in other ways. -/
@[grind ←] theorem lift {x : Except EvalError α} (hx : Fails E x) :
    Fails (Within E) (liftM x : Except Failure α) := by
  cases x with
  | ok a => exact ok a
  | error e => exact error (hx e rfl)

@[grind ←] theorem numeral (x : Except Text.NumeralError α) :
    Fails (Within E) (x.mapError .numeral) := by
  cases x with
  | ok a => exact ok a
  | error e => exact error trivial

end Fails

/-! ## Computations -/

namespace Run.Raises

variable {σ α β : Type} {E : EvalError → Prop}
variable {e : EvalError} {f : α → Run σ β}

@[grind ←] theorem pure (a : α) : Raises E (Pure.pure a : Run σ α) := by
  rintro _ _ _ ⟨⟩

@[grind ←] theorem throw {c : Failure} (h : Within E c) : Raises E (MonadExcept.throw c : Run σ α) := by
  rintro _ _ _ ⟨⟩
  exact h

theorem fail (h : E e) : Raises E (Run.fail e : Run σ α) := throw h

@[grind ←] theorem common (hE : Admits E) (h : e.isCommon) :
    Raises E (Run.fail e : Run σ α) := fail (hE e h)

@[grind ←] theorem failReporting (hE : Admits E) (numbers : List Int) (h : e.isCommon) :
    Raises E (Run.failReporting numbers e : Run σ α) := by
  unfold Run.failReporting
  grind -ring -linarith

@[grind ←] theorem get : Raises E (MonadState.get : Run σ σ) := by
  rintro _ _ _ ⟨⟩

@[grind ←] theorem readState : Raises E (getThe σ : Run σ σ) := by
  rintro _ _ _ ⟨⟩

@[grind ←] theorem set (s : σ) : Raises E (MonadStateOf.set s : Run σ PUnit) := by
  rintro _ _ _ ⟨⟩

@[grind ←] theorem modify (f : σ → σ) : Raises E (modify f : Run σ PUnit) := by
  rintro _ _ _ ⟨⟩

@[grind ←] theorem modifyGet (f : σ → α × σ) : Raises E (modifyGet f : Run σ α) := by
  rintro _ _ _ ⟨⟩

@[grind ←] theorem bind {act : Run σ α} (h : Raises E act) (hf : ∀ a, Raises E (f a)) :
    Raises E (act >>= f) := by
  intro s c s' herror
  cases hact : act s with
  | ok a s1 => exact hf a s1 c s' (by rwa [bind_of_ok hact] at herror)
  | error c1 s1 =>
    rw [bind_of_error hact] at herror
    cases herror
    exact h _ _ _ hact

theorem guard {p : Prop} [Decidable p] {check : Run σ PUnit} {rest : Run σ α}
    (h : Raises E check) (hrest : Raises E rest) :
    Raises E (if p then check >>= fun _ => rest else rest) := by
  split
  · exact bind h fun _ => hrest
  · exact hrest

theorem ofExcept {x : Except Failure α} (h : Fails (Within E) x) : Raises E (Run.of x : Run σ α) := by
  cases x with
  | ok a => exact pure a
  | error c => exact throw (h c rfl)

@[grind ←] theorem lift {x : Except Failure α} (h : Fails (Within E) x) :
    Raises E (liftM x : Run σ α) := ofExcept h

@[grind ←] theorem liftError {x : Except EvalError α} (h : Fails E x) :
    Raises E (liftM x : Run σ α) := ofExcept (Fails.lift h)

@[grind ←] theorem ok (a : α) : Raises E (EStateM.Result.ok a : Run σ α) := pure a

@[grind ←] theorem mapM (hf : ∀ a, Raises E (f a)) (xs : List α) : Raises E (xs.mapM f) := by
  induction xs with
  | nil => exact pure []
  | cons x xs ih =>
    rw [List.mapM_cons]
    exact bind (hf x) fun _ => bind ih fun _ => pure _

@[grind ←] theorem mapOption (hf : ∀ a, Raises E (f a)) (x : Option α) : Raises E (x.mapM f) := by
  cases x with
  | none => exact pure none
  | some a => exact bind (hf a) fun _ => pure _

@[grind ←] theorem foldlM {f : β → α → Run σ β} (hf : ∀ b a, Raises E (f b a)) (b : β)
    (xs : List α) : Raises E (xs.foldlM f b) := by
  induction xs generalizing b with
  | nil => exact pure b
  | cons x xs ih =>
    rw [List.foldlM_cons]
    exact bind (hf b x) ih

@[grind ←] theorem forIn {f : α → β → Run σ (ForInStep β)} (hf : ∀ a b, Raises E (f a b)) (b : β)
    (xs : List α) : Raises E (forIn xs b f) := by
  induction xs generalizing b with
  | nil => exact pure b
  | cons x xs ih =>
    rw [List.forIn_cons]
    refine bind (hf x b) fun r => ?_
    cases r with
    | done b => exact pure b
    | yield b => exact ih b

end Run.Raises

/-! ## Values -/

-- small functions are opened where they are called
attribute [local grind =] Scalar.toU128 Scalar.toI128 Ty.offsets Ty.pointee Ty.identity
  Store.truth Store.equals Store.secondOperand Store.deriveTruth Store.fresh Store.require
  Cast.resize Memory.get Memory.makeSymbolic Machine.IntrinsicCall.arg Machine.IntrinsicCall.pointer
  Machine.IntrinsicCall.count Machine.IntrinsicCall.resultUsize Machine.IntrinsicCall.resultPair
  Machine.IntrinsicCall.typeArg Machine.arith Machine.exchange Machine.typeName Machine.floatMath
  Store.checkCells

variable {E : EvalError → Prop}

section Bare

variable (hE : AdmitsBare E)
include hE

namespace Scalar

variable (v : Scalar)

@[grind ←] theorem fails_toPattern : Fails E (v.toPattern) := by
  cases v <;> unfold toPattern <;> grind -ring -linarith

@[grind ←] theorem fails_toU64 : Fails E (v.toU64) := by
  unfold toU64
  grind -ring -linarith

@[grind ←] theorem fails_toI64 : Fails E (v.toI64) := by
  unfold toI64
  grind -ring -linarith

@[grind ←] theorem fails_toNumber (kind : Kind) : Fails E (v.toNumber kind) := by
  unfold toNumber
  grind -ring -linarith

@[grind ←] theorem fails_toDouble (kind : Kind) : Fails E (v.toDouble kind) := by
  unfold toDouble
  grind -ring -linarith

@[grind ←] theorem fails_toBool : Fails E (v.toBool) := by
  unfold toBool
  grind -ring -linarith

@[grind ←] theorem fails_toPtr : Fails E (v.toPtr) := by
  cases v <;> unfold toPtr <;> grind -ring -linarith

end Scalar

@[grind ←] theorem Pointer.fails_offsetBy (p : Pointer) (delta : Int) : Fails E (p.offsetBy delta) := by
  cases p <;> unfold offsetBy <;> grind -ring -linarith

end Bare

@[grind ←] theorem Json.fails_toInt (value : Json) : Fails (Within E) value.toInt := by
  unfold toInt
  grind -ring -linarith

@[grind ←] theorem Json.fails_toDouble (value : Json) : Fails (Within E) value.toDouble := by
  unfold toDouble
  grind -ring -linarith

/-! ## Types -/

namespace Ty

/-- Types with a property that a type hands down to its parts and to what it points to, and the errors
of their layouts. -/
structure Blames (Q : Ty → Prop) (E : EvalError → Prop) : Prop where
  pointee {t u : Ty} : Q t → t.pointee? = some u → Q u
  fields {t u : Ty} {ts : List Ty} : Q t → t.fields? = some ts → u ∈ ts → Q u
  elem {t : Ty} {length : Int} : Q (array t length) → Q t
  sliceElem {t : Ty} : Q (slice t) → Q t
  unsizedType {t : Ty} : Q t → E (.unsizedType t)
  innerUnsizedField : E .innerUnsizedField

namespace Blames

variable {Q : Ty → Prop} (hQ : Blames Q E)
include hQ

mutual

theorem layout : ∀ t : Ty, Q t → Fails E t.layout
  | int _ _ _, _ | bool, _ | char, _ | f32, _ | f64, _ | fnPtr _, _ | str, _ => by
    unfold Ty.layout
    exact .ok _
  | rawPtr inner m, h | ref inner m, h => by
    unfold Ty.layout
    exact .andThen (layout inner (hQ.pointee h rfl)) fun _ => .pure _
  | slice elem, h => by
    unfold Ty.layout
    exact .andThen (layout elem (hQ.sliceElem h)) fun _ => .pure _
  | array elem length, h => by
    unfold Ty.layout
    refine .andThen (layout elem (hQ.elem h)) fun l => ?_
    split
    · exact .pure _
    · exact .error (hQ.unsizedType (hQ.elem h))
  | tuple fields, h | struct _ fields _, h => by
    unfold Ty.layout
    exact .andThen (place fields fun t ht => hQ.fields h rfl ht) fun _ => .pure _

theorem place : ∀ (ts : List Ty), (∀ t ∈ ts, Q t) → ∀ {offset : Int} {align : Nat},
    Fails E (Ty.place ts offset align)
  | [], _, _, _ => by
    unfold Ty.place
    exact .ok _
  | t :: ts, h, _, _ => by
    unfold Ty.place
    refine .andThen (layout t (h t (by simp))) fun l => ?_
    dsimp only
    split
    · split
      · exact .pure _
      · exact .error hQ.innerUnsizedField
    · exact .andThen (place ts fun u hu => h u (by simp [hu])) fun _ => .pure _

end

end Blames

variable (hE : Admits E) (t : Ty)
include hE

theorem blames_of_admits : Blames (fun _ => True) E :=
  ⟨fun _ _ => ⟨⟩, fun _ _ _ => ⟨⟩, fun _ => ⟨⟩, fun _ => ⟨⟩, fun _ => hE _ rfl, hE _ rfl⟩

@[grind ←] theorem fails_layout : Fails E t.layout := (blames_of_admits hE).layout t ⟨⟩

@[grind ←] theorem fails_place (ts : List Ty) (offset : Int) (align : Nat) :
    Fails E (place ts offset align) :=
  (blames_of_admits hE).place ts fun _ _ => ⟨⟩

@[grind ←] theorem fails_isSized : Fails E (t.isSized) := by
  unfold isSized
  grind -ring -linarith

@[grind ←] theorem fails_size : Fails E (t.size) := by
  unfold size
  grind -ring -linarith

@[grind ←] theorem fails_align : Fails E (t.align) := by
  unfold align
  grind -ring -linarith

@[grind ←] theorem fails_isFat : Fails E (t.isFat) := by
  unfold isFat
  grind -ring -linarith

@[grind ←] theorem fails_isPrimitive : Fails E (t.isPrimitive) := by
  unfold isPrimitive
  grind -ring -linarith

@[grind ←] theorem fails_kind : Fails E (t.kind) := by
  unfold kind
  grind -ring -linarith

omit hE

@[grind ←] theorem fails_nameBytes : Fails (Within E) t.nameBytes := by
  unfold nameBytes
  split <;> grind -ring -linarith

mutual

theorem fails_extent (hE : Admits E) (length : Option Int) :
    ∀ t : Ty, Fails (Within E) (t.extent length)
  | slice _ | str | int _ _ _ | bool | char | f32 | f64 | rawPtr _ _ | ref _ _ | fnPtr _
  | array _ _ => by
    unfold extent
    grind -ring -linarith
  | tuple fields | struct _ fields _ => by
    have := fails_aggregateExtent hE length fields
    unfold extent
    grind -ring -linarith

theorem fails_aggregateExtent (hE : Admits E) (length : Option Int) (fields : List Ty) :
    ∀ whole, Fails (Within E) (aggregateExtent length whole fields) := by
  intro whole
  have := fails_lastExtent hE length fields
  unfold aggregateExtent
  grind -ring -linarith

theorem fails_lastExtent (hE : Admits E) (length : Option Int) :
    ∀ fields : List Ty, Fails (Within E) (lastExtent length fields)
  | [] => by
    unfold lastExtent
    grind -ring -linarith
  | [t] => by
    have := fails_extent hE length t
    unfold lastExtent
    grind -ring -linarith
  | _ :: t :: ts => by
    have := fails_lastExtent hE length (t :: ts)
    unfold lastExtent
    grind -ring -linarith

end

attribute [grind ←] fails_extent

end Ty

/-! ## Operators -/

section Bare

variable (hE : AdmitsBare E)
include hE

namespace Operator

variable (op : BinOp)

@[grind ←] theorem fails_onFloats (x y : Nat) (kind : Kind) : Fails E (onFloats op x y kind) := by
  unfold onFloats
  grind -ring -linarith

@[grind ←] theorem fails_onInts (a b : Int) (kind : Kind) : Fails E (onInts op a b kind) := by
  unfold onInts
  grind -ring -linarith

@[grind ←] theorem fails_onPointers (lhs rhs : Scalar) : Fails E (onPointers op lhs rhs) := by
  unfold onPointers
  grind -ring -linarith

@[grind ←] theorem fails_swapBytes (v : Scalar) (kind : Kind) : Fails E (swapBytes v kind) := by
  unfold swapBytes
  grind -ring -linarith

end Operator

@[grind ←] theorem Cast.fails_toChar (n : Int) : Fails E (Cast.toChar n) := by
  unfold Cast.toChar
  grind -ring -linarith

end Bare

variable (hE : Admits E)
include hE

namespace FloatFn

omit hE in
@[grind ←] theorem fails_fused (kind : Kind) (x y z : BitVec 128) :
    Fails (Within E) (fused kind x y z) := by
  unfold fused
  grind -ring -linarith

@[grind ←] theorem fails_apply (fn : FloatFn) (kind : Kind) (args : List Scalar) :
    Fails (Within E) (fn.apply kind args) := by
  unfold apply
  grind -ring -linarith

end FloatFn

namespace Store

@[grind ←] theorem fails_term (s : Store) (v : Scalar) (kind : Kind) :
    Fails (Within E) (s.term v kind) := by
  unfold term
  grind -ring -linarith

@[grind ←] theorem fails_shiftAmount (s : Store) (v : Scalar) (w : Nat) :
    Fails (Within E) (s.shiftAmount v w) := by
  unfold shiftAmount
  grind -ring -linarith

omit hE in
@[grind ←] theorem raises_derive (kind : Kind) (t : Term kind.bits) : Raises E (derive kind t) := by
  unfold derive
  grind -ring -linarith

@[grind ←] theorem raises_binary (op : BinOp) (lhs rhs : Scalar) (kind : Kind) (rhsKind : Option Kind) :
    Raises E (binary op lhs rhs kind rhsKind) := by
  unfold binary
  grind -ring -linarith

@[grind ←] theorem raises_overflowing (op : BinOp) (lhs rhs : Scalar) (kind : Kind) :
    Raises E (overflowing op lhs rhs kind) := by
  unfold overflowing
  grind -ring -linarith

@[grind ←] theorem raises_select (cond yes no : Scalar) (kind : Kind) :
    Raises E (select cond yes no kind) := by
  unfold select
  grind -ring -linarith

@[grind ←] theorem raises_countBits (way : BitCount) (v : Scalar) (kind : Kind) :
    Raises E (countBits way v kind) := by
  unfold countBits
  grind -ring -linarith

end Store

namespace Operator

@[grind ←] theorem raises_binary (op : BinOp) (lhs rhs : Scalar) (kind : Kind) (rhsKind : Option Kind) :
    Raises E (binary op lhs rhs kind rhsKind) := by
  unfold binary
  grind -ring -linarith

@[grind ←] theorem raises_overflowing (op : BinOp) (lhs rhs : Scalar) (kind : Kind) (rhsKind : Option Kind) :
    Raises E (overflowing op lhs rhs kind rhsKind) := by
  unfold overflowing
  grind -ring -linarith

@[grind ←] theorem raises_unary (op : UnOp) (v : Scalar) (kind : Kind) :
    Raises E (unary op v kind) := by
  unfold unary
  grind -ring -linarith

end Operator

namespace Cast

@[grind ←] theorem fails_known (pattern : BitVec 128) (source dest : Ty) :
    Fails E (known pattern source dest) := by
  unfold known refused
  grind -ring -linarith

@[grind ←] theorem fails_pointer (p : Pointer) (source dest : Ty) :
    Fails E (pointer p source dest) := by
  unfold pointer refused
  grind -ring -linarith

@[grind ←] theorem raises_symbolic (cells : List Cell) (source dest : Ty) :
    Raises E (symbolic cells source dest) := by
  unfold symbolic refused
  grind -ring -linarith

@[grind ←] theorem raises_cast (v : Scalar) (source dest : Ty) : Raises E (cast v source dest) := by
  unfold cast
  grind -ring -linarith

end Cast

/-! ## Memory -/

namespace Memory

variable (p : Pointer) (m : Memory) (size : Int)

omit hE in
@[grind ←] theorem raises_onStore {α : Type} {act : Run Store α} (h : Raises E act) :
    Raises E (onStore act) := by
  intro m c m' herror
  unfold onStore at herror
  split at herror
  · cases herror
  · rename_i hact
    cases herror
    exact h _ _ _ hact

@[grind ←] theorem fails_checked (p : Pointer) (size align : Int) :
    Fails E (m.checked p size align) := by
  unfold checked
  grind -ring -linarith

@[grind ←] theorem fails_readBytes (p : Pointer) (size align : Int) :
    Fails E (m.readBytes p size align) := by
  unfold readBytes
  grind -ring -linarith

@[grind ←] theorem fails_readScalar (p : Pointer) (size : Int) (kind : Kind) (align : Int) :
    Fails E (m.readScalar p size kind align) := by
  unfold readScalar
  grind -ring -linarith

@[grind ←] theorem raises_allocate (align : Int) (region : Region) :
    Raises E (allocate size align region) := by
  unfold allocate
  grind -ring -linarith

@[grind ←] theorem raises_allocateStatic (data : List (BitVec 8)) :
    Raises E (allocateStatic data) := by
  unfold allocateStatic fillWith
  grind -ring -linarith

@[grind ←] theorem raises_deallocate (region : Option Region) : Raises E (deallocate p region) := by
  unfold deallocate
  split
  · refine .bind .readState fun m => ?_
    split
    · grind
    · cases region <;> grind -ring -linarith
  · grind

@[grind ←] theorem raises_markPacked : Raises E (markPacked p size) := by
  unfold markPacked
  grind -ring -linarith

@[grind ←] theorem raises_writeBytes (cells : List Cell) (align : Int) :
    Raises E (writeBytes p cells align) := by
  unfold writeBytes
  grind -ring -linarith

@[grind ←] theorem raises_writeRepeat (cell : Cell) (count align : Int) :
    Raises E (writeRepeat p cell count align) := by
  unfold writeRepeat
  grind -ring -linarith

@[grind ←] theorem raises_markDefinedness (defined : Bool) :
    Raises E (markDefinedness p size defined) := by
  unfold markDefinedness
  grind -ring -linarith

@[grind ←] theorem raises_copyBytes (source dest : Pointer) (size align : Int) :
    Raises E (copyBytes source dest size align) := by
  unfold copyBytes
  grind -ring -linarith

@[grind ←] theorem raises_writeScalar (v : Scalar) (size align : Int) :
    Raises E (writeScalar p v size align) := by
  unfold writeScalar
  grind -ring -linarith

end Memory

/-! ## Places and operands -/

namespace Machine

variable (p : Pointer) (ty : Ty) (v : Scalar) (ref : PlaceRef)

omit hE in
@[grind ←] theorem raises_onMemory {α : Type} {act : Run Memory α} (h : Raises E act) :
    Raises E (onMemory act) := by
  intro m c m' herror
  unfold onMemory at herror
  split at herror
  · cases herror
  · rename_i hact
    cases herror
    exact h _ _ _ hact

omit hE in
@[grind ←] theorem raises_onStore {α : Type} {act : Run Store α} (h : Raises E act) :
    Raises E (onStore act) := raises_onMemory (Memory.raises_onStore h)

omit hE in
@[grind ←] theorem raises_changeFrame (f : Frame → Frame) : Raises E (changeFrame f) :=
  .modify _

omit hE in
@[grind ←] theorem raises_goto (block : Int) : Raises E (goto block) := raises_changeFrame _

omit hE in
@[grind ←] theorem raises_frame : Raises E frame := by
  unfold frame
  grind -ring -linarith

@[grind ←] theorem raises_readScalar : Raises E (readScalar p ty) := by
  unfold readScalar
  grind -ring -linarith

@[grind ←] theorem raises_writeScalar (ty : Ty) (aligned : Bool) :
    Raises E (writeScalar p v ty aligned) := by
  unfold writeScalar
  grind -ring -linarith

@[grind ←] theorem fails_pairFields : Fails E (pairFields ty) := by
  unfold pairFields
  grind -ring -linarith

@[grind ←] theorem raises_readPair : Raises E (readPair p ty) := by
  unfold readPair
  grind -ring -linarith

@[grind ←] theorem raises_writePair (first second : Scalar) (ty : Ty) (aligned : Bool) :
    Raises E (writePair p first second ty aligned) := by
  unfold writePair
  grind -ring -linarith

@[grind ←] theorem raises_writeValue (v : Value) (ty : Ty) (aligned : Bool) :
    Raises E (writeValue p v ty aligned) := by
  unfold writeValue
  grind -ring -linarith

@[grind ←] theorem raises_readArg (arg : Arg) : Raises E (readArg arg) := by
  unfold readArg
  grind -ring -linarith

@[grind ←] theorem fails_knownLength (length : Option Scalar) : Fails E (knownLength length) := by
  unfold knownLength
  grind -ring -linarith

@[grind ←] theorem fails_element (index : Int) : Fails E (element ref index) := by
  unfold element
  grind -ring -linarith

@[grind ←] theorem fails_fieldOf (index : Int) : Fails (Within E) (fieldOf ref index) := by
  unfold fieldOf
  split
  · grind
  · refine .guard (by grind) fun _ => .bind (by grind) fun offsets => ?_
    grind -ring -linarith

@[grind ←] theorem raises_deref : Raises E (deref ref) := by
  unfold deref
  grind -ring -linarith

@[grind ←] theorem raises_evalConstant (value : Json) (ty : Ty) :
    Raises E (evalConstant value ty) := by
  unfold evalConstant
  grind -ring -linarith

/-! ## Intrinsics -/

namespace IntrinsicCall

@[grind ←] theorem raises_prim (c : IntrinsicCall) (index : Nat) : Raises E (c.prim index) := by
  unfold prim
  grind -ring -linarith

@[grind ←] theorem raises_result (c : IntrinsicCall) (v : Scalar) : Raises E (c.result v) := by
  unfold result
  grind -ring -linarith

@[grind ←] theorem fails_elemType (c : IntrinsicCall) : Fails (Within E) c.elemType := by
  unfold elemType
  grind -ring -linarith

@[grind ←] theorem fails_kind (c : IntrinsicCall) : Fails (Within E) c.kind := by
  unfold kind
  grind -ring -linarith

end IntrinsicCall

section

variable (c : IntrinsicCall)

@[grind ←] theorem raises_overflowArith (op : OverflowOp) : Raises E (overflowArith c op) := by
  unfold overflowArith
  grind -ring -linarith

@[grind ←] theorem raises_countBits (way : BitCount) (nonzero : Bool) :
    Raises E (countBits c way nonzero) := by
  unfold countBits
  grind -ring -linarith

@[grind ←] theorem raises_compareExchange : Raises E (compareExchange c) := by
  unfold compareExchange
  refine .bind (by grind) fun ty => .bind (by grind) fun kind => .bind (by grind) fun p => ?_
  refine .bind (by grind) fun expected => .bind (by grind) fun new => ?_
  grind -ring -linarith

@[grind ←] theorem raises_fetch (op : FetchOp) : Raises E (fetch c op) := by
  unfold fetch
  grind -ring -linarith

@[grind ←] theorem raises_copy : Raises E (copy c) := by
  unfold copy
  grind -ring -linarith

@[grind ←] theorem raises_writeBytes : Raises E (writeBytes c) := by
  unfold writeBytes
  refine .bind (by grind) fun ty => .bind (by grind) fun dest => ?_
  refine .bind (by grind) fun byte => .bind (by grind) fun count => ?_
  grind -ring -linarith

@[grind ←] theorem raises_transmute : Raises E (transmute c) := by
  unfold transmute
  split
  · grind
  · refine .bind (by grind) fun source => .bind (by grind) fun size => ?_
    grind -ring -linarith

@[grind ←] theorem raises_symbolicOffset (base count : Scalar) (size : Int) :
    Raises E (symbolicOffset base count size) := by
  unfold symbolicOffset
  grind -ring -linarith

@[grind ←] theorem raises_knownOffset (base : Scalar) (delta : Int) (wrapping : Bool) :
    Raises E (knownOffset base delta wrapping) := by
  unfold knownOffset
  split
  · refine .bind (by grind) fun moved => ?_
    grind -ring -linarith
  · grind

@[grind ←] theorem raises_offset (wrapping : Bool) : Raises E (offset c wrapping) := by
  unfold offset
  grind -ring -linarith

@[grind ←] theorem raises_valueExtent : Raises E (valueExtent c) := by
  unfold valueExtent
  refine .bind (by grind) fun arg => ?_
  split <;> grind -ring -linarith

@[grind ←] theorem raises_perform : Raises E (perform c) := by
  unfold perform
  by_cases hassume : c.intrinsic = .assume
  · rw [hassume]
    refine .bind (IntrinsicCall.raises_prim hE c 0) fun v => ?_
    split
    · exact raises_onStore (.bind .get fun s => by grind)
    · grind
  · grind

end

/-! ## Parts of a step -/

@[grind ←] theorem raises_castValue (source dest : Ty) : Raises E (castValue v source dest) := by
  unfold castValue
  grind -ring -linarith

@[grind ←] theorem raises_castTo (dest : PlaceRef) (source : Arg) :
    Raises E (castTo dest source) := by
  unfold castTo
  refine .bind (by grind) fun fat => ?_
  split
  · grind
  · refine .bind (by grind) fun fat => ?_
    split
    · cases source.value <;> grind -ring -linarith
    · grind

@[grind ←] theorem fails_shiftKind (op : BinOp) (rhs : Arg) : Fails E (shiftKind op rhs) := by
  unfold shiftKind
  grind -ring -linarith

@[grind ←] theorem raises_switchOn (kind : Kind) (values targets : List Int) (otherwise : Int) :
    Raises E (switchOn v kind values targets otherwise) := by
  unfold switchOn
  split <;> grind -ring -linarith

@[grind ←] theorem raises_assertOn (expected : Bool) (target : Int) (message : Json) :
    Raises E (assertOn v expected target message) := by
  unfold assertOn
  grind -ring -linarith

@[grind ←] theorem raises_panicMessage (args : List Arg) : Raises E (panicMessage args) := by
  unfold panicMessage
  grind -ring -linarith

@[grind ←] theorem raises_performBuiltin (b : Builtin) (args : List Arg) (dest : Option PlaceRef)
    (typeArgs : List Ty) : Raises E (performBuiltin b args dest typeArgs) := by
  unfold performBuiltin
  split
  · grind
  · grind
  · refine .bind (by grind) fun p => .bind (by grind) fun p => .bind (by grind) fun size => ?_
    grind -ring -linarith
  · split <;> grind -ring -linarith
  · grind

@[grind ←] theorem raises_handOver (f : Frame) : Raises E (handOver f) := by
  unfold handOver
  grind -ring -linarith

@[grind ←] theorem raises_resume (f : Frame) : Raises E (resume f) := by
  unfold resume
  grind -ring -linarith

@[grind ←] theorem raises_freeLocals (locals : List Pointer) : Raises E (freeLocals locals) := by
  unfold freeLocals
  grind -ring -linarith

@[grind ←] theorem raises_ret : Raises E ret := by
  unfold ret
  grind -ring -linarith

@[grind ←] theorem raises_afterCall (c : Call) : Raises E (afterCall c) := by
  unfold afterCall
  grind -ring -linarith

omit hE

/-! ## Steps -/

section Steps

variable (hF : AdmitsFeasible E)
include hF

@[grind ←] theorem raises_arity (name : Json) (expected : Int) (got : Nat) :
    Raises E (Run.fail (.arity name expected got) : Run Machine Unit) :=
  .fail (hF _ (by simp [EvalError.kind]))

@[grind ←] theorem fails_localAt (f : Frame) (index : Int) : Fails E (localAt f index) := by
  have hlocal : Fails E (.error (.noLocal f.function.name index) : Except _ (Pointer × Ty)) :=
    .error (hF _ (by simp [EvalError.kind]))
  unfold localAt
  grind -ring -linarith

@[grind ←] theorem raises_project (f : Frame) (ref : PlaceRef) (p : Projection) :
    Raises E (project f ref p) := by
  unfold project
  grind -ring -linarith

@[grind ←] theorem raises_evalPlace (place : Place) : Raises E (evalPlace place) := by
  unfold evalPlace
  grind -ring -linarith

@[grind ←] theorem raises_evalOperand (operand : Operand) : Raises E (evalOperand operand) := by
  unfold evalOperand
  grind -ring -linarith

@[grind ←] theorem raises_assign (place : Place) (rvalue : Rvalue) :
    Raises E (assign place rvalue) := by
  unfold assign
  refine .bind (by grind) fun dest => ?_
  cases rvalue with
  | binary op lhs rhs | checked op lhs rhs =>
    refine .bind (by grind) fun lhs => .bind (by grind) fun rhs => ?_
    grind -ring -linarith
  | use | unary | cast | ref | len => grind

@[grind ←] theorem raises_callIntrinsic (c : IntrinsicCall) : Raises E (callIntrinsic c) := by
  unfold callIntrinsic
  grind -ring -linarith

@[grind ←] theorem raises_pushFrame (function : Function) (args : List Arg) (returnPtr : Option Pointer)
    (returnTarget : Option Int) : Raises E (pushFrame function args returnPtr returnTarget) := by
  unfold pushFrame allocateLocals passArgs
  refine .bind .get fun m => .guard (by grind) (.guard (by grind) ?_)
  grind -ring -linarith

@[grind ←] theorem raises_switch (discr : Operand) (values targets : List Int) (otherwise : Int) :
    Raises E (switch discr values targets otherwise) := by
  unfold switch
  grind -ring -linarith

@[grind ←] theorem raises_assert (cond : Operand) (expected : Bool) (target : Int) (message : Json) :
    Raises E (assert cond expected target message) := by
  unfold assert
  grind -ring -linarith

@[grind ←] theorem raises_callBuiltin (b : Builtin) (args : List Arg) (dest : Option PlaceRef)
    (typeArgs : List Ty) : Raises E (callBuiltin b args dest typeArgs) := by
  unfold callBuiltin
  grind -ring -linarith

@[grind ←] theorem raises_callOther (c : Call) (args : List Arg) (dest : Option PlaceRef) :
    Raises E (callOther c args dest) := by
  unfold callOther
  grind -ring -linarith

@[grind ←] theorem raises_evalCall (c : Call) : Raises E (evalCall c) := by
  unfold evalCall
  grind -ring -linarith

@[grind ←] theorem raises_call (c : Call) : Raises E (call c) := by
  unfold call callWith
  refine .bind (by grind) fun found => .guard (by grind) ?_
  grind -ring -linarith

@[grind ←] theorem raises_terminate (t : Terminator) : Raises E (terminate t) := by
  unfold terminate
  grind -ring -linarith

@[grind ←] theorem fails_blockOf (f : Frame) : Fails (Within E) (blockOf f) := by
  have hblock : Fails (Within E) (.error (.error (.noBlock f.function.name f.block)) :
      Except _ Block) := .error (hF _ (by simp [EvalError.kind]))
  unfold blockOf
  grind -ring -linarith

@[grind ←] theorem raises_stepFrame (f : Frame) : Raises E (stepFrame f) := by
  unfold stepFrame stepStatement
  grind -ring -linarith

end Steps
end Machine
end SymExec

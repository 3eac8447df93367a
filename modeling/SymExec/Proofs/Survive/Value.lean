import SymExec.Proofs.Derive
import SymExec.Proofs.Survive.Ty

/-!
# Values of bytes that exist

A value is below `n` if the symbolic bytes that it names are among the first `n`. The operations on
the store fail only with errors of the path if their operands are below its size, and their results
are below the size that it then has.
-/
namespace SymExec

open Run Scalar

variable {n : Nat} {cells : List Cell} {i j : Nat} {cells' list : List Cell} {rhsKind : Option Kind}

/-! ## Values -/

/-- The symbolic bytes that cells name are among the first `n`. -/
def Cell.Below (n : Nat) (cells : List Cell) : Prop := ∀ i ∈ Cell.symbols cells, i < n

mutual

/-- The symbolic bytes that the offset of a pointer names are among the first `n`. -/
def Pointer.Below (n : Nat) : Pointer → Prop
  | .known _ _ => True
  | .symbolic _ offset => offset.Below n

/-- The symbolic bytes that a primitive value names are among the first `n`. -/
def Scalar.Below (n : Nat) : Scalar → Prop
  | .bits _ => True
  | .ptr p => p.Below n
  | .undef => True
  | .cells list => Cell.Below n list

end

def Value.Below (n : Nat) : Value → Prop
  | .one v => v.Below n
  | .pair first second => first.Below n ∧ second.Below n
  | .inMemory p => p.Below n

theorem Cell.Below.mono (h : Cell.Below i cells) (hle : i ≤ j) :
    Cell.Below j cells := fun k hk => Nat.lt_of_lt_of_le (h k hk) hle

theorem Cell.below_iff : Cell.Below n cells ↔ ∀ i, .symbol i ∈ cells → i < n := by
  refine forall_congr' fun i => imp_congr_left ?_
  simp only [Cell.symbols, List.mem_filterMap]
  constructor
  · rintro ⟨c, hc, hsymbol⟩
    cases c with
    | known b => cases hsymbol
    | symbol j =>
      cases hsymbol
      exact hc
  · exact fun h => ⟨_, h, rfl⟩

theorem Cell.Below.subset (h : Cell.Below n cells) (hsub : ∀ c ∈ cells', c ∈ cells) :
    Cell.Below n cells' :=
  Cell.below_iff.2 fun i hi => Cell.below_iff.1 h i (hsub _ hi)

theorem Cell.Below.append (h : Cell.Below n cells) (h' : Cell.Below n cells') :
    Cell.Below n (cells ++ cells') := by
  refine Cell.below_iff.2 fun i hi => ?_
  rcases List.mem_append.1 hi with hi | hi
  · exact Cell.below_iff.1 h i hi
  · exact Cell.below_iff.1 h' i hi

theorem Cell.below_of_known (h : ∀ c ∈ cells, ∃ b, c = .known b) : Cell.Below n cells := by
  refine Cell.below_iff.2 fun i hi => ?_
  obtain ⟨b, hb⟩ := h _ hi
  cases hb

theorem Cell.below_replicate (n count : Nat) (b : BitVec 8) :
    Cell.Below n (List.replicate count (.known b)) :=
  Cell.below_of_known fun _ hc => ⟨b, List.eq_of_mem_replicate hc⟩

theorem Cell.below_ofNat (n value size : Nat) : Cell.Below n (Cell.ofNat value size) := by
  refine Cell.below_of_known fun c hc => ?_
  induction size generalizing value with
  | zero => cases hc
  | succ size ih =>
    rcases List.mem_cons.1 hc with rfl | hc
    · exact ⟨_, rfl⟩
    · exact ih _ hc

theorem Store.below_cellsFrom (start size : Nat) :
    Cell.Below (start + size) (Store.cellsFrom start size) := by
  refine Cell.below_iff.2 fun i hi => ?_
  obtain ⟨j, hj, ⟨⟩⟩ := List.mem_map.1 hi
  have := List.mem_range.1 hj
  omega

mutual

theorem Pointer.Below.mono {i j : Nat} (hle : i ≤ j) : ∀ {p : Pointer}, p.Below i → p.Below j
  | .known _ _, _ => trivial
  | .symbolic _ _, h => Scalar.Below.mono hle h

theorem Scalar.Below.mono {i j : Nat} (hle : i ≤ j) : ∀ {v : Scalar}, v.Below i → v.Below j
  | .bits _, _ => trivial
  | .ptr _, h => Pointer.Below.mono hle h
  | .undef, _ => trivial
  | .cells _, h => Cell.Below.mono h hle

end

theorem Value.Below.mono {v : Value} (h : v.Below i) (hle : i ≤ j) : v.Below j := by
  cases v with
  | one v => exact Scalar.Below.mono hle h
  | pair first second => exact ⟨Scalar.Below.mono hle h.1, Scalar.Below.mono hle h.2⟩
  | inMemory p => exact Pointer.Below.mono hle h

namespace Scalar

variable {n : Nat}

theorem below_ofNat (x : Nat) : (ofNat x).Below n := trivial

theorem below_ofInt (x : Int) : (ofInt x).Below n := trivial

theorem below_ofBool (b : Bool) : (ofBool b).Below n := trivial

theorem below_ofBits (x : Int) (kind : Kind) : (ofBits x kind).Below n := trivial

theorem below_ofDouble (x : Nat) (kind : Kind) : (ofDouble x kind).Below n := by
  unfold ofDouble
  split <;> trivial

theorem below_ofCells (h : Cell.Below n list) (kind : Kind) : (ofCells list kind).Below n := by
  unfold ofCells
  split
  · trivial
  · exact h

theorem below_toPtr {v : Scalar} {p : Pointer} (hv : v.Below n) (h : v.toPtr = .ok p) :
    p.Below n := by
  cases v with
  | ptr q =>
    cases h
    exact hv
  | bits | undef | cells => cases h

end Scalar

namespace Pointer

variable {n : Nat} {p : Pointer}

theorem below_offset (h : p.Below n) : p.offset.Below n := by
  cases p with
  | known => trivial
  | symbolic id o => exact h

theorem below_atOffset (id : Nat) {v : Scalar} (h : v.Below n) : (atOffset id v).Below n := by
  cases v with
  | bits p => trivial
  | ptr | undef | cells => exact h

theorem below_offsetBy {delta : Int} {q : Pointer} (h : p.offsetBy delta = .ok q) : q.Below n := by
  cases p with
  | known id o =>
    cases h
    trivial
  | symbolic => cases h

end Pointer

/-! ## The store -/

namespace Store

variable {D : Prop} {n : Nat} {s : Store}
variable {v : Scalar} {op : BinOp} {lhs rhs : Scalar}

def contract (D : Prop) : Contract Store := ⟨fun _ => True, size, D⟩

theorem spares_checkCells (h : Cell.Below s.size list) : Spares D (s.checkCells list) := by
  rw [checkCells_eq_ok.2 h]
  exact .ok ()

theorem spares_term (hv : v.Below s.size) (kind : Kind) : Spares D (s.term v kind) := by
  cases v with
  | bits => exact .ok _
  | ptr | undef => exact .error (.inl rfl)
  | cells list =>
    unfold term
    dsimp only
    split
    · exact .error (.inl rfl)
    · exact .bind (spares_checkCells hv) fun _ _ => .ok _

theorem spares_shiftAmount (hv : v.Below s.size) (w : Nat) : Spares D (s.shiftAmount v w) := by
  cases v with
  | bits => exact .ok _
  | ptr | undef => exact .error (.inl rfl)
  | cells list =>
    unfold shiftAmount
    dsimp only
    split
    · exact .error (.inl rfl)
    · exact .bind (spares_checkCells hv) fun _ _ => .ok _

theorem spares_secondOperand (hv : v.Below s.size) (kind : Kind)
    (hkind : op.isShift = true ∨ rhsKind = none) :
    Spares D (s.secondOperand op v kind (rhsKind.getD kind)) := by
  unfold secondOperand
  split
  · exact spares_shiftAmount hv _
  · obtain rfl : rhsKind = none := hkind.resolve_left ‹_›
    refine .bind (spares_term hv _) fun t _ => ?_
    rw [dif_pos (show ((none : Option Kind).getD kind).bits = kind.bits from rfl)]
    exact .ok _

theorem spares_truth (hv : v.Below s.size) : Spares D (s.truth v) :=
  .bind (spares_term hv _) fun _ _ => .ok _

theorem spares_equals (hv : v.Below s.size) (x : Int) (kind : Kind) :
    Spares D (s.equals v x kind) := .bind (spares_term hv _) fun _ _ => .ok _

theorem survives_extend (g : Segment) :
    Survives (contract D) n Cell.Below
      (modifyGet fun s => (cellsFrom s.size g.size, s.extend [g])) := by
  constructor
  · rintro s _ _ - - ⟨⟩
    simp only [contract, size_extend_one]
    exact ⟨trivial, Nat.le_add_right _ _, below_cellsFrom s.size g.size⟩
  · rintro s _ _ - - ⟨⟩

theorem survives_derive (kind : Kind) (t : Term kind.bits) :
    Survives (contract D) n Scalar.Below (derive kind t) := by
  unfold derive
  cases t.constant? with
  | some c => exact .pure fun _ _ => below_ofBits _ _
  | none =>
    -- the bytes of the term join the store, so they are below the size that it then has
    refine .bind (survives_extend (.derived kind.numBytes t)) fun k _ cells hcells => ?_
    exact .pure fun i hi => hcells.mono hi

theorem survives_deriveTruth (c : Condition) :
    Survives (contract D) n Scalar.Below (deriveTruth c) := survives_derive _ _

theorem survives_binary (hlhs : lhs.Below n) (hrhs : rhs.Below n) (kind : Kind)
    (hkind : op.isShift = true ∨ rhsKind = none) :
    Survives (contract D) n Scalar.Below (binary op lhs rhs kind rhsKind) := by
  refine .getBind fun s _ hn => ?_
  refine .liftBind (spares_term (hlhs.mono hn) kind) fun a _ => ?_
  refine .liftBind (spares_secondOperand (hrhs.mono hn) kind hkind) fun b _ => ?_
  cases combine kind.isSigned op a b with
  | word t => exact survives_derive kind t
  | truth c => exact survives_deriveTruth c

theorem survives_overflowing (op : BinOp) (hlhs : lhs.Below n) (hrhs : rhs.Below n) (kind : Kind) :
    Survives (contract D) n (fun k r => r.1.Below k ∧ r.2.Below k) (overflowing op lhs rhs kind) := by
  refine .getBind fun s _ hn => ?_
  refine .liftBind (spares_term (hlhs.mono hn) kind) fun a _ => ?_
  refine .liftBind (spares_term (hrhs.mono hn) kind) fun b _ => ?_
  extract_lets widened record
  have hrecord (wordOp : WordOp) : Survives (contract D) ((contract D).size s)
      (fun k r => r.1.Below k ∧ r.2.Below k) (record wordOp) := by
    refine .bind (survives_derive kind _) fun i _ v hv => ?_
    refine .bind (survives_deriveTruth _) fun j hj w hw => .pure fun l hl => ?_
    exact ⟨hv.mono (hj.trans hl), hw.mono hl⟩
  cases op with
  | add => exact hrecord .add
  | sub => exact hrecord .sub
  | mul => exact hrecord .mul
  | _ => exact .fail _ (.inl rfl)

theorem survives_select {cond yes no : Scalar} (hcond : cond.Below n) (hyes : yes.Below n)
    (hno : no.Below n) (kind : Kind) :
    Survives (contract D) n Scalar.Below (select cond yes no kind) := by
  refine .getBind fun s _ hn => ?_
  refine .liftBind (spares_truth (hcond.mono hn)) fun c _ => ?_
  refine .liftBind (spares_term (hyes.mono hn) kind) fun a _ => ?_
  refine .liftBind (spares_term (hno.mono hn) kind) fun b _ => ?_
  exact survives_derive kind _

theorem survives_countBits (way : BitCount) (hv : v.Below n) (kind : Kind) :
    Survives (contract D) n Scalar.Below (countBits way v kind) := by
  refine .getBind fun s _ hn => ?_
  exact .liftBind (spares_term (hv.mono hn) kind) fun t _ => survives_derive kind _

theorem survives_fresh (size : Int) :
    Survives (contract D) n Cell.Below (fresh size) :=
  survives_extend (.input size.toNat)

theorem survives_require (c : Condition) : Lasts (contract D) n (require c) :=
  .modify fun _ _ _ => ⟨trivial, Nat.le_refl _⟩

end Store

/-! ## Operators -/

namespace Operator

variable {D : Prop} {n : Nat}
variable {kind : Kind} {op : BinOp} {lhs rhs v : Scalar}

theorem below_onFloats {x y : Nat} (h : onFloats op x y kind = .ok v) : v.Below n := by
  unfold onFloats at h
  dsimp only at h
  split at h
  · cases h
    exact below_ofBool _
  · split at h <;> cases h <;> exact below_ofDouble _ _

theorem below_onInts {a b : Int} (h : onInts op a b kind = .ok v) : v.Below n := by
  unfold onInts at h
  dsimp only at h
  split at h
  · cases h
    exact below_ofBool _
  · split at h
    case h_4 | h_5 =>
      split at h
      · cases h
      · cases h
        exact below_ofBits _ _
    all_goals
      cases h
      exact below_ofBits _ _

theorem below_onPointers (h : onPointers op lhs rhs = .ok v) : v.Below n := by
  unfold onPointers at h
  split at h
  · cases h
  · split at h
    · cases h
      exact below_ofBool _
    · split at h
      · cases h
        exact below_ofBool _
      · cases h
    · cases h

theorem survives_binary (hlhs : lhs.Below n) (hrhs : rhs.Below n) (kind : Kind)
    (hkind : op.isShift = true ∨ rhsKind = none) :
    Survives (Store.contract D) n Scalar.Below (binary op lhs rhs kind rhsKind) := by
  have hstore : Survives (Store.contract D) n Scalar.Below
      (Store.binary op lhs rhs kind rhsKind) := Store.survives_binary hlhs hrhs kind hkind
  unfold binary
  split
  · exact .pure fun _ _ => trivial
  · split
    · exact .liftError (by grind) fun v hv _ _ => below_onPointers hv
    · split
      · refine .guard (fun _ => .fail _ (.inl rfl)) fun _ => ?_
        refine .check (by grind) fun x _ => .check (by grind) fun y _ => ?_
        exact .liftError (by grind) fun v hv _ _ => below_onFloats hv
      · split
        · split
          · exact .guard (fun _ => .fail _ (.inl rfl)) fun _ => hstore
          · exact hstore
        · split
          · refine .check (by grind) fun amount _ => .check (by grind) fun x _ => ?_
            exact .liftError (by grind) fun v hv _ _ => below_onInts hv
          · refine .check (by grind) fun x _ => .check (by grind) fun y _ => ?_
            exact .liftError (by grind) fun v hv _ _ => below_onInts hv

theorem survives_overflowing (hlhs : lhs.Below n) (hrhs : rhs.Below n) (kind : Kind)
    (hkind : op.isShift = true ∨ rhsKind = none) :
    Survives (Store.contract D) n (fun k r => r.1.Below k ∧ r.2.Below k)
      (overflowing op lhs rhs kind rhsKind) := by
  unfold overflowing
  split
  · exact .pure fun _ _ => ⟨trivial, trivial⟩
  · refine .guard (fun _ => .fail _ (.inl rfl)) fun _ => ?_
    split
    · refine .bind (survives_binary hlhs hrhs kind hkind) fun k _ v hv => ?_
      refine .guard (fun _ => .fail _ (.inl rfl)) fun _ => .check (by grind) fun amount _ => ?_
      exact .pure fun i hi => ⟨hv.mono hi, below_ofBool _⟩
    · extract_lets record
      have hrecord (exact : Int → Int → Int) : Survives (Store.contract D) n
          (fun k r => r.1.Below k ∧ r.2.Below k) (record exact) := by
        dsimp only [record]
        split
        · exact Store.survives_overflowing op hlhs hrhs kind
        · refine .check (by grind) fun x _ => .check (by grind) fun y _ => .check (by grind) fun z _ => ?_
          exact .pure fun _ _ => ⟨below_ofBits _ _, below_ofBool _⟩
      cases op with
      | add => exact hrecord fun a b => a + b
      | sub => exact hrecord fun a b => a - b
      | mul => exact hrecord fun a b => a * b
      | _ => exact .fail _ (.inl rfl)

theorem survives_unary (op : UnOp) (hv : v.Below n) (kind : Kind) :
    Survives (Store.contract D) n Scalar.Below (unary op v kind) := by
  have hnot (mask : Int) : Survives (Store.contract D) n Scalar.Below
      (binary .bitXor v (.ofBits mask kind) kind none) :=
    survives_binary hv (below_ofBits _ _) kind (.inr rfl)
  have hneg : Survives (Store.contract D) n Scalar.Below
      (binary .sub (.ofNat 0) v kind none) :=
    survives_binary (below_ofNat 0) hv kind (.inr rfl)
  unfold unary
  cases v with
  | undef => exact .pure fun _ _ => trivial
  | ptr p => exact .fail _ (.inl rfl)
  | bits p =>
    dsimp only
    split
    · exact .guard (fun _ => .fail _ (.inl rfl)) fun _ => .pure fun _ _ => trivial
    · cases op with
      | not => exact hnot _
      | neg => exact hneg
  | cells list =>
    dsimp only
    split
    · exact .guard (fun _ => .fail _ (.inl rfl)) fun _ => .fail _ (.inl rfl)
    · cases op with
      | not => exact hnot _
      | neg => exact hneg

theorem below_swapBytes {w : Scalar} (hv : v.Below n) (h : swapBytes v kind = .ok w) : w.Below n := by
  cases v with
  | undef =>
    cases h
    trivial
  | cells list =>
    cases h
    exact Cell.Below.subset hv fun c hc => List.mem_reverse.1 hc
  | bits p =>
    cases h
    trivial
  | ptr p => cases h

end Operator

/-! ## Casts -/

namespace Cast

variable {D : Prop} {n : Nat}
variable {v : Scalar} {dest source : Ty}

theorem below_toChar {x : Int} (h : toChar x = .ok v) : v.Below n := by
  unfold toChar at h
  split at h
  · cases h
    trivial
  · cases h

theorem below_pointer {p : Pointer} (hp : p.Below n) (h : pointer p source dest = .ok v) :
    v.Below n := by
  unfold pointer at h
  split at h
  · cases h
    exact hp
  · cases h
    exact hp
  · split at h
    · cases h
      exact hp
    · cases h
  · cases h

theorem below_known {pattern : BitVec 128} (h : known pattern source dest = .ok v) : v.Below n := by
  unfold known at h
  split at h
  case h_1 | h_2 | h_3 =>
    obtain ⟨_, -, h⟩ := bind_iff.1 h
    obtain ⟨_, -, ⟨⟩⟩ := bind_iff.1 h
    trivial
  case h_4 | h_5 | h_6 =>
    obtain ⟨_, -, h⟩ := bind_iff.1 h
    exact below_toChar h
  case h_7 =>
    obtain ⟨_, -, ⟨⟩⟩ := bind_iff.1 h
    trivial
  case h_8 =>
    obtain ⟨_, -, ⟨⟩⟩ := bind_iff.1 h
    trivial
  case h_9 =>
    split at h
    · obtain ⟨_, -, ⟨⟩⟩ := bind_iff.1 h
      trivial
    · cases h
  case h_10 =>
    split at h
    · cases h
      trivial
    · cases h

theorem below_resize {list' : List Cell} {source dest : Kind} (hlist : Cell.Below n list)
    (h : resize list source dest = .ok list') : Cell.Below n list' := by
  unfold resize at h
  split at h
  · cases h
    exact hlist.subset fun c hc => List.mem_of_mem_take hc
  · split at h
    · split at h
      · cases h
      · cases h
        exact hlist.append (Cell.below_replicate n _ 0)
    · cases h
      exact hlist

theorem fair_resize (list : List Cell) (source dest : Kind) :
    Fails EvalError.Fair (resize list source dest) := by
  unfold resize
  split
  · exact .ok _
  · split
    · split
      · exact .error (.inl rfl)
      · exact .ok _
    · exact .ok _

section Fair

variable (hsource : source.Modest) (hdest : dest.Modest)
include hsource hdest

@[grind ←] theorem fair_refused {α : Type} :
    Fails EvalError.Fair (refused source dest : Except EvalError α) :=
  .error (.of_shown (by simp [EvalError.shown, Shown.fault?, Ty.Modest.nameFault?_eq_none, *]))

theorem fair_known (pattern : BitVec 128) : Fails EvalError.Fair (known pattern source dest) := by
  unfold known
  split <;> grind -ring -linarith

theorem fair_pointer (p : Pointer) : Fails EvalError.Fair (pointer p source dest) := by
  unfold pointer
  split
  · exact .ok _
  · exact .ok _
  · split
    · exact .ok _
    · exact .error (.inl rfl)
  · exact fair_refused hsource hdest

theorem survives_symbolic (hlist : Cell.Below n list) :
    Survives (Store.contract D) n Scalar.Below (symbolic list source dest) := by
  have hpattern (kind : Kind) (pattern : BitVec 128) :
      Survives (Store.contract D) n Scalar.Below
        (if dest.category = .char then liftM (toChar (numberOf kind pattern))
          else pure (.bits pattern)) := by
    split
    · exact .liftError (by grind) fun v hv _ _ => below_toChar hv
    · exact .pure fun _ _ => trivial
  unfold symbolic
  split
  case h_1 | h_2 | h_3 | h_4 =>
    refine .check (by grind) fun destKind _ => .check (by grind) fun sourceKind _ => ?_
    refine .check (fair_resize _ _ _) fun resized hresized => ?_
    have hbelow : (ofCells resized destKind).Below n :=
      below_ofCells (below_resize hlist hresized) destKind
    split
    · exact hpattern destKind _
    · exact .pure fun k hk => hbelow.mono hk
  case h_5 =>
    have hcells : (cells list).Below n := hlist
    refine .check (by grind) fun destKind _ => ?_
    exact Store.survives_select hcells (below_ofBits _ _) (below_ofBits _ _) destKind
  case h_6 => exact .liftError (by grind) fun v hv => by cases hv

theorem survives_cast (hv : v.Below n) :
    Survives (Store.contract D) n Scalar.Below (cast v source dest) := by
  cases v with
  | undef => exact .pure fun _ _ => trivial
  | ptr p =>
    exact .liftError (fair_pointer hsource hdest p) fun w hw k hk => (below_pointer hv hw).mono hk
  | cells list => exact survives_symbolic hsource hdest hv
  | bits pattern =>
    exact .liftError (fair_known hsource hdest pattern) fun w hw _ _ => below_known hw

end Fair
end Cast
end SymExec

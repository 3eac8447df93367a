import SymExec.Proofs.Parts
import SymExec.Proofs.Slot

/-!
# Compare-exchange and fetch operations

These intrinsics read a cell, compute what it is to hold from words that may be symbolic, write the cell
and give the old value. Where the comparison is symbolic, a choice between two words is recorded and
written; where it is known, one of them is. Under all values of the symbolic bytes that agree with what
the store then records, both are the same: the cell and the destination hold what arithmetic on the words
says, and all else is read as before (`Machine.atomic_updates`).
-/
namespace SymExec

open Run

/-! ## Primitive types -/

namespace Ty

variable {t : Ty} {kind : Kind}

theorem layout_of_kind (h : t.kind = .ok kind) :
    t.layout = .ok ⟨some kind.numBytes, kind.numBytes⟩ := by
  have hpointer {pointee : Ty}
      (h : (do if ← pointee.isSized then return .ptr else throw (.notPrimitive t) :
        Except EvalError Kind) = .ok kind) :
      (do return (← pointee.layout).pointer : Except EvalError Layout)
        = .ok ⟨some kind.numBytes, kind.numBytes⟩ := by
    obtain ⟨sized, hsized, h⟩ := bind_iff.1 h
    obtain ⟨⟨size, align⟩, hlayout, ⟨⟩⟩ := bind_iff.1 hsized
    refine bind_iff.2 ⟨_, hlayout, ?_⟩
    cases size with
    | none => cases h
    | some size =>
      cases h
      rfl
  cases t with
  | int | bool | char | f32 | f64 | fnPtr =>
    cases h
    rfl
  | rawPtr pointee _ | ref pointee _ =>
    unfold layout
    exact hpointer h
  | slice | str | array | tuple | struct => cases h

/-- A field without padding before it is placed where the fields before it end. -/
theorem place_cons {ts : List Ty} {n offset : Int} {k align : Nat} {list : List Int} {whole : Layout}
    (hlayout : t.layout = .ok ⟨some n, k⟩) (hstart : alignUp offset k = offset)
    (hrest : place ts (offset + n) (max align k) = .ok (list, whole)) :
    place (t :: ts) offset align = .ok (offset :: list, whole) := by
  rw [place, hlayout]
  change (place ts (alignUp offset k + n) (max align k) >>= fun x =>
    .ok (alignUp offset k :: x.1, x.2)) = _
  rw [hstart, hrest]
  rfl

/-- The truth value of a pair follows the primitive value. -/
theorem offsets_pair (h : t.kind = .ok kind) :
    offsets [t, .bool] = .ok [0, (kind.numBytes : Int)] := by
  have hpos := kind.numBytes_pos
  have hzero : alignUp 0 kind.numBytes = 0 := by
    rw [alignUp, Int.ediv_eq_zero_of_lt (by omega) (by omega), Int.zero_mul]
  have hone : alignUp (0 + kind.numBytes) 1 = 0 + kind.numBytes := by
    rw [alignUp]
    omega
  have hbool : bool.layout = .ok ⟨some 1, 1⟩ := by rw [layout]
  have hnil (offset : Int) (align : Nat) :
      place [] offset align = .ok ([], ⟨some (alignUp offset align), align⟩) := by
    rw [place]
  rw [offsets, place_cons (layout_of_kind h) hzero (place_cons hbool hone (hnil _ _)), Int.zero_add]
  rfl

end Ty

namespace Machine

variable {m m' : Machine} {ty : Ty} {kind : Kind} {id x : Nat} {p : Pointer} {list : List Cell}

/-! ## Primitive values -/

theorem readScalar_of_kind (h : ty.kind = .ok kind) (p : Pointer) (m : Machine) : readScalar p ty m
    = (liftM (m.memory.readScalar p kind.numBytes kind kind.numBytes) : Run Machine Scalar) m := by
  obtain ⟨hsize, halign⟩ := Ty.of_layout (Ty.layout_of_kind h)
  unfold readScalar
  rw [hsize, h, halign]
  rfl

theorem writeScalar_of_kind (h : ty.kind = .ok kind) (p : Pointer) (a : Scalar) (m : Machine) :
    writeScalar p a ty true m = onMemory (Memory.writeScalar p a kind.numBytes kind.numBytes) m := by
  obtain ⟨hsize, halign⟩ := Ty.of_layout (Ty.layout_of_kind h)
  unfold writeScalar
  rw [hsize, halign]
  rfl

theorem fills_writeScalar {s : Store} {a : Scalar} (hkind : ty.kind = .ok kind) (ha : a.Fits s kind)
    (h : writeScalar (.known id x) a ty true m = .ok () m') :
    m.memory.Fills m'.memory id x kind.numBytes ∧ m'.memory.store = m.memory.store ∧
      ∃ list, m'.memory.Shows (.known id x) kind list ∧
        ∀ v, (Scalar.ofCells list kind).word? v kind = a.word? v kind := by
  rw [writeScalar_of_kind hkind] at h
  obtain ⟨memory, hwrite, rfl⟩ := onMemory_eq_ok h
  obtain ⟨hfills, hstore, list, hshows, hword⟩ := Memory.fills_writeScalar ha hwrite
  refine ⟨hfills, hstore, list, hshows, fun v => ?_⟩
  rw [Scalar.word?_ofCells, hword]

theorem readScalar_of_shows (hkind : ty.kind = .ok kind) (h : m.memory.Shows p kind list) :
    readScalar p ty m = .ok (.ofCells list kind) m := by
  rw [readScalar_of_kind hkind]
  exact of_eq_ok.2 ⟨lift_eq_ok.2 h.readScalar, rfl⟩

theorem exists_shows {s : Store} {a : Scalar} (hkind : ty.kind = .ok kind) (ha : a.Fits s kind)
    (h : readScalar p ty m = .ok a m') :
    ∃ list, m.memory.Shows p kind list ∧ a = .ofCells list kind := by
  rw [readScalar_of_kind hkind] at h
  exact Memory.exists_shows ha (lift_eq_ok.1 (of_eq_ok.1 h).1)

/-! ## Pairs of a primitive and a truth value -/

theorem pairFields_tuple (h : ty.kind = .ok kind) :
    pairFields (.tuple [ty, .bool]) = .ok ((ty, 0), (.bool, (kind.numBytes : Int))) := by
  unfold pairFields
  simp only [Ty.fields?]
  rw [Ty.offsets_pair h]
  rfl

theorem offsetBy_fields (id : Nat) (hroom : x + kind.numBytes < 2 ^ 64) :
    (Pointer.known id x).offsetBy 0 = .ok (.known id x) ∧
      (Pointer.known id x).offsetBy kind.numBytes = .ok (.known id (x + kind.numBytes)) :=
  ⟨Pointer.offsetBy_known id (d := 0) (by omega), Pointer.offsetBy_known id hroom⟩

/-- A pair is written field by field. -/
theorem writePair_tuple (hkind : ty.kind = .ok kind) (hroom : x + kind.numBytes < 2 ^ 64)
    (first second : Scalar) (m : Machine) :
    writePair (.known id x) first second (.tuple [ty, .bool]) true m
      = (do writeScalar (.known id x) first ty true
            writeScalar (.known id (x + kind.numBytes)) second .bool true : Run Machine Unit) m := by
  obtain ⟨hfirst, hsecond⟩ := offsetBy_fields id hroom
  unfold writePair
  rw [pairFields_tuple hkind]
  change (do writeScalar (← (Pointer.known id x).offsetBy 0) first ty true
             writeScalar (← (Pointer.known id x).offsetBy kind.numBytes) second .bool true :
    Run Machine Unit) m = _
  rw [hfirst, hsecond]
  rfl

theorem readPair_tuple (hkind : ty.kind = .ok kind) (hroom : x + kind.numBytes < 2 ^ 64)
    (m : Machine) :
    readPair (.known id x) (.tuple [ty, .bool]) m
      = (do let first ← readScalar (.known id x) ty
            let second ← readScalar (.known id (x + kind.numBytes)) .bool
            return (first, second) : Run Machine (Scalar × Scalar)) m := by
  obtain ⟨hfirst, hsecond⟩ := offsetBy_fields id hroom
  unfold readPair
  rw [pairFields_tuple hkind]
  change (do let first ← readScalar (← (Pointer.known id x).offsetBy 0) ty
             let second ← readScalar (← (Pointer.known id x).offsetBy kind.numBytes) .bool
             return (first, second) : Run Machine (Scalar × Scalar)) m = _
  rw [hfirst, hsecond]
  rfl

/-! ## Results -/

variable {c : IntrinsicCall} {s : Store} {i y : Nat} {length : Option Scalar}

theorem result_eq_ok {a : Scalar} (hdest : c.dest = some ⟨.known i y, ty, length⟩)
    (hkind : ty.kind = .ok kind) (ha : a.Fits s kind) (h : c.result a m = .ok () m') :
    m.memory.Fills m'.memory i y kind.numBytes ∧ m'.memory.store = m.memory.store ∧
      ∃ b, readScalar (.known i y) ty m' = .ok b m' ∧ ∀ v, b.word? v kind = a.word? v kind := by
  unfold IntrinsicCall.result at h
  rw [hdest] at h
  obtain ⟨hfills, hstore, list, hshows, hword⟩ := fills_writeScalar hkind ha h
  exact ⟨hfills, hstore, _, readScalar_of_shows hkind hshows, hword⟩

/-- A pair of results shows in the destination: the second write leaves the first field alone. -/
theorem resultPair_eq_ok {first flag : Scalar}
    (hdest : c.dest = some ⟨.known i y, .tuple [ty, .bool], length⟩) (hkind : ty.kind = .ok kind)
    (hroom : y + kind.numBytes < 2 ^ 64) (hfirst : first.Fits s kind) (hflag : flag.Fits s .bool)
    (h : c.resultPair first flag m = .ok () m') :
    m.memory.Fills m'.memory i y (kind.numBytes + 1) ∧ m'.memory.store = m.memory.store ∧
      ∃ a b, readPair (.known i y) (.tuple [ty, .bool]) m' = .ok (a, b) m' ∧
        ∀ v, a.word? v kind = first.word? v kind ∧ b.word? v .bool = flag.word? v .bool := by
  have hbool : Ty.bool.kind = .ok .bool := rfl
  have hone : Kind.bool.numBytes = 1 := rfl
  unfold IntrinsicCall.resultPair at h
  rw [hdest] at h
  simp only [writePair_tuple hkind hroom] at h
  obtain ⟨⟨⟩, m1, hwrite, hwrite'⟩ := bind_eq_ok.1 h
  obtain ⟨hfills, hstore, list, hshows, hword⟩ := fills_writeScalar hkind hfirst hwrite
  obtain ⟨hfills', hstore', list', hshows', hword'⟩ := fills_writeScalar hbool hflag hwrite'
  have hkept : m'.memory.Shows (.known i y) kind list :=
    hshows.fills hfills' fun _ => .inl (by omega)
  refine ⟨(hfills.widen (by omega) (by omega) (by omega)).trans
    (hfills'.widen (by omega) (by omega) (by omega)), hstore'.trans hstore, .ofCells list kind,
    .ofCells list' .bool, ?_, fun v => ⟨hword v, hword' v⟩⟩
  rw [readPair_tuple hkind hroom]
  exact bind_eq_ok.2 ⟨_, _, readScalar_of_shows hkind hkept,
    bind_eq_ok.2 ⟨_, _, readScalar_of_shows hbool hshows', rfl⟩⟩

/-! ## The cell -/

def withStore (m : Machine) (s : Store) : Machine := { m with memory := { m.memory with store := s } }

theorem onStore_of_ok {α : Type} {act : Run Store α} {r : α} (h : act m.memory.store = .ok r s) :
    onStore act m = .ok r (m.withStore s) := by
  simp only [onStore, onMemory, Memory.onStore, h, withStore]

/-- A call for a cell: its first argument points to an integer, truth value, character or thin pointer
that is defined and that is read as the word `old`. -/
structure IntrinsicCall.OnCell (c : IntrinsicCall) (m : Machine) (ty : Ty) (kind : Kind) (id x : Nat)
    (old : Scalar) : Prop where
  elemType : c.elemType = .ok ty
  ofKind : ty.kind = .ok kind
  notFloat : kind.isFloat = false
  pointer : c.pointer 0 m = .ok (.known id x) m
  read : readScalar (.known id x) ty m = .ok old m
  fits : old.Fits m.memory.store kind

def IntrinsicCall.Takes (c : IntrinsicCall) (m : Machine) (index : Nat) (kind : Kind) (a : Scalar) :
    Prop :=
  c.prim index m = .ok a m ∧ a.Fits m.memory.store kind

variable {old expected new : Scalar}

theorem IntrinsicCall.OnCell.run_elemType (h : c.OnCell m ty kind id x old) :
    (liftM c.elemType : Run Machine Ty) m = .ok ty m := of_eq_ok.2 ⟨h.elemType, rfl⟩

theorem IntrinsicCall.OnCell.run_kind (h : c.OnCell m ty kind id x old) :
    (liftM ty.kind : Run Machine Kind) m = .ok kind m :=
  of_eq_ok.2 ⟨lift_eq_ok.2 h.ofKind, rfl⟩

structure Stored (m m' : Machine) (s : Store) (kind : Kind) (id x : Nat) (list : List Cell) : Prop where
  fills : m.memory.Fills m'.memory id x kind.numBytes
  shows : m'.memory.Shows (.known id x) kind list
  store : m'.memory.store = s

theorem fills_withStore (m : Machine) (s : Store) (id x : Nat) (size : Int) :
    m.memory.Fills (m.withStore s).memory id x size := .of_allocs id x size rfl

theorem stored_of_write {a : Scalar} (hkind : ty.kind = .ok kind) (ha : a.Fits s kind)
    (h : writeScalar (.known id x) a ty true (m.withStore s) = .ok () m') :
    ∃ list, Stored m m' s kind id x list ∧
      ∀ v, (Scalar.ofCells list kind).word? v kind = a.word? v kind := by
  obtain ⟨hfills, hstore, list, hshows, hword⟩ := fills_writeScalar hkind ha h
  exact ⟨list, ⟨(fills_withStore m s id x _).trans hfills, hshows, hstore⟩, hword⟩

/-- Nothing was written: the cell shows what it did. -/
theorem stored_of_read (hkind : ty.kind = .ok kind) (ha : old.Fits s kind)
    (h : readScalar (.known id x) ty m = .ok old m') (s' : Store) :
    ∃ list, Stored m (m.withStore s') s' kind id x list ∧ old = .ofCells list kind := by
  obtain ⟨list, hshows, hold⟩ := exists_shows hkind ha h
  have hkept : (m.withStore s').memory.Shows (.known id x) kind list :=
    (Memory.excerpt_congr rfl _ _ _).trans hshows
  exact ⟨list, ⟨fills_withStore m s' id x _, hkept, rfl⟩, hold⟩

theorem fetch_eq_ok (op : FetchOp) (hcell : c.OnCell m ty kind id x old) (harg : c.Takes m 1 kind new)
    (h : fetch c op m = .ok () m') :
    ∃ s m1 list, Stored m m1 s kind id x list ∧ c.result old m1 = .ok () m' ∧
      ∀ v, s.Satisfied v →
        ∃ o a, old.word? v kind = some o ∧ new.word? v kind = some a ∧
          (Scalar.ofCells list kind).word? v kind = some (op.onWords o a) := by
  obtain ⟨r, s, hbinary, -, hfits, hword⟩ :=
    Operator.fetch_word op hcell.notFloat hcell.fits harg.2
  unfold fetch at h
  rw [bind_of_ok hcell.run_elemType, bind_of_ok hcell.run_kind, bind_of_ok hcell.pointer,
    bind_of_ok hcell.read, bind_of_ok harg.1, bind_of_ok (onStore_of_ok hbinary)] at h
  obtain ⟨⟨⟩, m1, hwrite, hresult⟩ := bind_eq_ok.1 h
  obtain ⟨list, hstored, hspells⟩ := stored_of_write hcell.ofKind hfits hwrite
  refine ⟨s, m1, list, hstored, hresult, fun v hv => ?_⟩
  obtain ⟨o, a, ho, ha, hr⟩ := hword v hv
  exact ⟨o, a, ho, ha, (hspells v).trans hr⟩

theorem word?_of_toBool {p : BitVec 128} {b : Bool} (h : (Scalar.bits p).toBool = .ok b)
    (v : Valuation) : (Scalar.bits p).word? v .bool = some (if b then 1#_ else 0#_) := by
  have hword {n : Nat} (hp : p.toNat = n) : (Scalar.bits p).word? v .bool = some (BitVec.ofNat _ n) := by
    rw [Scalar.word?, ← BitVec.ofNat_toNat, hp]
  rw [toBool_bits] at h
  split at h
  · cases h
    exact hword ‹_›
  · split at h
    · cases h
      exact hword ‹_›
    · cases h

/-- The new value is stored unless the comparison gives zero, and then the old one stays. -/
theorem compareExchange_eq_ok {success : Scalar} (hcell : c.OnCell m ty kind id x old)
    (hexpected : c.Takes m 1 kind expected) (hnew : c.Takes m 2 kind new)
    (hequal : Operator.binary .eq old expected kind none m.memory.store = .ok success s)
    (hderives : m.memory.store.Derives s) (hsuccess : success.Fits s .bool)
    (h : compareExchange c m = .ok () m') :
    ∃ s' m1 list, s.Derives s' ∧ Stored m m1 s' kind id x list ∧
      c.resultPair old success m1 = .ok () m' ∧ ∀ v, s'.Satisfied v →
        (Scalar.ofCells list kind).word? v kind
          = if success.word? v .bool = some 0#_ then old.word? v kind else new.word? v kind := by
  have hnewFits := hnew.2.mono hderives.size_le
  have holdFits := hcell.fits.mono hderives.size_le
  unfold compareExchange at h
  rw [bind_of_ok hcell.run_elemType, bind_of_ok hcell.run_kind, bind_of_ok hcell.pointer,
    bind_of_ok hexpected.1, bind_of_ok hnew.1, bind_of_ok hcell.read,
    bind_of_ok (onStore_of_ok hequal)] at h
  cases hsuccess with
  | bits p =>
    -- a known comparison is a truth value, or the call fails
    obtain ⟨b, hbool, h⟩ := liftBind_eq_ok.1 h
    have hflag := word?_of_toBool hbool
    cases b with
    | true =>
      obtain ⟨⟨⟩, m1, hwrite, hresult⟩ := bind_eq_ok.1 h
      obtain ⟨list, hstored, hspells⟩ := stored_of_write hcell.ofKind hnewFits hwrite
      refine ⟨s, m1, list, .refl, hstored, hresult, fun v _ => ?_⟩
      rw [hspells, hflag]
      rfl
    | false =>
      obtain ⟨list, hstored, hold⟩ := stored_of_read hcell.ofKind hcell.fits hcell.read s
      refine ⟨s, _, list, .refl, hstored, h, fun v _ => ?_⟩
      rw [hold, hflag]
      rfl
  | @cells cells hlength hscope =>
    -- the choice is recorded after the comparison, in a store that extends the first one
    obtain ⟨r, s', hselect, hderives', hr, hword⟩ :=
      Store.select_word (.cells hlength hscope) hnewFits holdFits
    obtain ⟨r', m2, hselected, h⟩ := bind_eq_ok.1 h
    cases (onStore_of_ok (m := m.withStore s) hselect).symm.trans hselected
    obtain ⟨⟨⟩, m1, hwrite, hresult⟩ := bind_eq_ok.1 h
    obtain ⟨list, hstored, hspells⟩ := stored_of_write (m := m) hcell.ofKind hr hwrite
    exact ⟨s', m1, list, hderives', hstored, hresult, fun v hv => (hspells v).trans (hword v hv)⟩

/-! ## Whole calls -/

/-- The cell holds the new word if the old one is the expected one, and else the old one. The destination
is the old word and a truth value that says which. -/
def Exchanged (m : Machine) (ty : Ty) (kind : Kind) (cell dest : Pointer) (old expected new : Scalar) :
    Prop :=
  ∃ held first flag, readScalar cell ty m = .ok held m ∧
    readPair dest (.tuple [ty, .bool]) m = .ok (first, flag) m ∧
    ∀ v, (∀ d ∈ m.memory.store.definitions, d.satisfied v) → ∃ o e w,
      old.word? v kind = some o ∧ expected.word? v kind = some e ∧ new.word? v kind = some w ∧
      held.word? v kind = some (if o = e then w else o) ∧ first.word? v kind = some o ∧
      flag.word? v .bool = some (if o = e then 1#_ else 0#_)

/-- The cell holds the result of an operation with the old word, which wraps around, and the destination
is the old word. -/
def Fetched (m : Machine) (ty : Ty) (kind : Kind) (cell dest : Pointer) (op : FetchOp)
    (old operand : Scalar) : Prop :=
  ∃ held result, readScalar cell ty m = .ok held m ∧ readScalar dest ty m = .ok result m ∧
    ∀ v, (∀ d ∈ m.memory.store.definitions, d.satisfied v) → ∃ o a,
      old.word? v kind = some o ∧ operand.word? v kind = some a ∧
      held.word? v kind = some (op.onWords o a) ∧ result.word? v kind = some o

theorem compareExchange_exchanged (hcell : c.OnCell m ty kind id x old)
    (hexpected : c.Takes m 1 kind expected) (hnew : c.Takes m 2 kind new)
    (hdest : c.dest = some ⟨.known i y, .tuple [ty, .bool], length⟩)
    (hroom : y + kind.numBytes < 2 ^ 64)
    (hapart : id = i → x + kind.numBytes ≤ y ∨ y + kind.numBytes + 1 ≤ x)
    (h : compareExchange c m = .ok () m') :
    Exchanged m' ty kind (.known id x) (.known i y) old expected new ∧
      m.memory.ReadsKept m'.memory id x kind.numBytes i y (kind.numBytes + 1) := by
  obtain ⟨success, s, hequal, hderives, hsuccess, hcompared⟩ :=
    Operator.equal_word hcell.notFloat hcell.fits hexpected.2
  obtain ⟨s', m1, list, hderives', ⟨hfills, hshows, hstore⟩, hresult, hword⟩ :=
    compareExchange_eq_ok hcell hexpected hnew hequal hderives hsuccess h
  obtain ⟨hfills', hstore', first, flag, hpair, hkept⟩ := resultPair_eq_ok hdest hcell.ofKind hroom
    (hcell.fits.mono hderives.size_le) hsuccess hresult
  have hheld := readScalar_of_shows hcell.ofKind (hshows.fills hfills' fun hid => by
    have := hapart hid
    omega)
  refine ⟨⟨_, first, flag, hheld, hpair, fun v hv => ?_⟩, hfills.readsKept hfills'⟩
  rw [hstore', hstore] at hv
  obtain ⟨o, e, ho, he, hflag⟩ := hcompared v fun d hd => hv d (hderives'.mem_definitions hd)
  obtain ⟨w, hw⟩ := hnew.2.exists_word v
  refine ⟨o, e, w, ho, he, hw, ?_, (hkept v).1.trans ho, (hkept v).2.trans hflag⟩
  rw [hword v hv, hflag, ho, hw]
  by_cases hoe : o = e
  · rw [if_pos hoe, if_pos hoe, if_neg (by decide)]
  · rw [if_neg hoe, if_neg hoe, if_pos rfl]

theorem fetch_fetched {op : FetchOp} (hcell : c.OnCell m ty kind id x old) (harg : c.Takes m 1 kind new)
    (hdest : c.dest = some ⟨.known i y, ty, length⟩)
    (hapart : id = i → x + kind.numBytes ≤ y ∨ y + kind.numBytes ≤ x) (h : fetch c op m = .ok () m') :
    Fetched m' ty kind (.known id x) (.known i y) op old new ∧
      m.memory.ReadsKept m'.memory id x kind.numBytes i y kind.numBytes := by
  obtain ⟨s, m1, list, ⟨hfills, hshows, hstore⟩, hresult, hword⟩ := fetch_eq_ok op hcell harg h
  obtain ⟨hfills', hstore', result, hread, hkept⟩ := result_eq_ok hdest hcell.ofKind hcell.fits hresult
  have hheld := readScalar_of_shows hcell.ofKind (hshows.fills hfills' fun hid => by
    have := hapart hid
    omega)
  refine ⟨⟨_, result, hheld, hread, fun v hv => ?_⟩, hfills.readsKept hfills'⟩
  rw [hstore', hstore] at hv
  obtain ⟨o, a, ho, ha, hnew⟩ := hword v hv
  exact ⟨o, a, ho, ha, hnew, (hkept v).trans ho⟩

theorem callIntrinsic_eq_ok (h : callIntrinsic c m = .ok () m') : perform c m = .ok () m' := by
  unfold callIntrinsic at h
  split at h
  · cases h
  · exact h

/-- A call that succeeds on a cell that was read as `old`, with a destination that has no byte in common
with the cell. Under all values that agree with what the store records afterwards, a compare-exchange
and a fetch operation leave in both what arithmetic on the words says. No other range is read
differently, unless it shares a stored pointer with one that was written. The second field of a pair is
assumed to lie in the address space, where its offset does not wrap around. -/
theorem atomic_updates (hcell : c.OnCell m ty kind id x old) (h : callIntrinsic c m = .ok () m') :
    (∀ expected new i y length, c.intrinsic = .compareExchange →
      c.Takes m 1 kind expected → c.Takes m 2 kind new →
      c.dest = some ⟨.known i y, .tuple [ty, .bool], length⟩ → y + kind.numBytes < 2 ^ 64 →
      (id = i → x + kind.numBytes ≤ y ∨ y + kind.numBytes + 1 ≤ x) →
      Exchanged m' ty kind (.known id x) (.known i y) old expected new ∧
        m.memory.ReadsKept m'.memory id x kind.numBytes i y (kind.numBytes + 1)) ∧
    (∀ op operand i y length, c.intrinsic = .fetch op →
      c.Takes m 1 kind operand → c.dest = some ⟨.known i y, ty, length⟩ →
      (id = i → x + kind.numBytes ≤ y ∨ y + kind.numBytes ≤ x) →
      Fetched m' ty kind (.known id x) (.known i y) op old operand ∧
        m.memory.ReadsKept m'.memory id x kind.numBytes i y kind.numBytes) := by
  have hperform := callIntrinsic_eq_ok h
  unfold perform at hperform
  refine ⟨fun expected new i y length hop hexpected hnew hdest hroom hapart => ?_,
    fun op operand i y length hop harg hdest hapart => ?_⟩
  · rw [hop] at hperform
    exact compareExchange_exchanged hcell hexpected hnew hdest hroom hapart hperform
  · rw [hop] at hperform
    exact fetch_fetched hcell harg hdest hapart hperform

namespace Latch

abbrev number : Ty := .int .w16 false false

/-- A number whose low byte is symbolic, and room for a result. -/
def start : Machine where
  program := ⟨[]⟩
  limits := {}
  memory := {
    limit := 64
    allocs := [(1, ⟨[.symbol 0, .known 0], [true, true], 2, .stack, [], []⟩),
      (2, Memory.fresh 4 2 .stack)]
    next := 3
    usage := 6
    store := { segments := [.input 1] } }

def call (intrinsic : Intrinsic) (operands : List (BitVec 128)) (result : Ty) : IntrinsicCall where
  intrinsic := intrinsic
  callee := intrinsic.name
  args := ⟨.one (.ptr (.known 1 0)), .rawPtr number true⟩ ::
    operands.map fun p => ⟨.one (.bits p), number⟩
  dest := some ⟨.known 2 0, result, none⟩
  typeArgs := []

def exchange : IntrinsicCall := call .compareExchange [5, 7] (.tuple [number, .bool])

def add : IntrinsicCall := call (.fetch .add) [5] number

theorem onCell (intrinsic : Intrinsic) (operands : List (BitVec 128)) (result : Ty) :
    (call intrinsic operands result).OnCell start number (.int .w16 false) 1 0
      (.cells [.symbol 0, .known 0]) :=
  ⟨rfl, rfl, rfl, rfl, rfl, .cells rfl (by decide)⟩

theorem run_exchange : ∃ m', callIntrinsic exchange start = .ok () m' := ⟨_, by rfl⟩

theorem run_add : ∃ m', callIntrinsic add start = .ok () m' := ⟨_, by rfl⟩

end Latch

/-- Five is replaced by seven, and five is added. -/
theorem atomic_updates_latch :
    (∃ m' cell first flag, callIntrinsic Latch.exchange Latch.start = .ok () m' ∧
      readScalar (.known 1 0) Latch.number m' = .ok cell m' ∧
      readPair (.known 2 0) (.tuple [Latch.number, .bool]) m' = .ok (first, flag) m' ∧
      ∀ v, (∀ d ∈ m'.memory.store.definitions, d.satisfied v) →
        let x := BitVec.ofNat 16 (v 0).toNat
        cell.word? v (.int .w16 false) = some (if x = 5#16 then 7#16 else x) ∧
        first.word? v (.int .w16 false) = some x ∧
        flag.word? v .bool = some (if x = 5#16 then 1#_ else 0#_)) ∧
    ∃ m' cell result, callIntrinsic Latch.add Latch.start = .ok () m' ∧
      readScalar (.known 1 0) Latch.number m' = .ok cell m' ∧
      readScalar (.known 2 0) Latch.number m' = .ok result m' ∧
      ∀ v, (∀ d ∈ m'.memory.store.definitions, d.satisfied v) →
        let x := BitVec.ofNat 16 (v 0).toNat
        cell.word? v (.int .w16 false) = some (x + 5#16) ∧
        result.word? v (.int .w16 false) = some x := by
  constructor
  · obtain ⟨m', hrun⟩ := Latch.run_exchange
    obtain ⟨⟨cell, first, flag, hcell, hpair, hwords⟩, -⟩ := (atomic_updates (Latch.onCell _ _ _) hrun).1
      (.bits 5) (.bits 7) 2 0 none rfl ⟨rfl, .bits 5⟩ ⟨rfl, .bits 7⟩ rfl (by decide) (by decide)
    refine ⟨m', cell, first, flag, hrun, hcell, hpair, fun v hv => ?_⟩
    obtain ⟨o, e, w, ⟨⟩, ⟨⟩, ⟨⟩, hwords⟩ := hwords v hv
    exact hwords
  · obtain ⟨m', hrun⟩ := Latch.run_add
    obtain ⟨⟨cell, result, hcell, hread, hwords⟩, -⟩ := (atomic_updates (Latch.onCell _ _ _) hrun).2
      .add (.bits 5) 2 0 none rfl ⟨rfl, .bits 5⟩ rfl (by decide)
    refine ⟨m', cell, result, hrun, hcell, hread, fun v hv => ?_⟩
    obtain ⟨o, a, ⟨⟩, ⟨⟩, hwords⟩ := hwords v hv
    exact hwords

end Machine
end SymExec

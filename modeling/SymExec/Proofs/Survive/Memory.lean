import SymExec.Proofs.Region
import SymExec.Proofs.Survive.Value

/-!
# Memory operations that do not die

A memory is healthy if it is valid, if the symbolic bytes that it holds exist, and if its limit is less
than the number of cells that can be made at once. Then an allocation within the limit can always be
made, and one beyond it is an error of the path. The operations that change contents keep the bytes in
scope (`Memory.scope`) whatever else the memory is like; that it stays valid is known of each of them.
-/
namespace SymExec

open Run Section List

variable {start stop : Int} {cells : List Cell}

theorem Section.mem_of_mem_slice {α : Type} {xs : List α} {x : α} (h : x ∈ slice xs start stop) :
    x ∈ xs :=
  mem_of_mem_drop (mem_of_mem_take h)

theorem Section.mem_of_mem_splice {α : Type} {xs items : List α} {x : α}
    (h : x ∈ splice xs start stop items) : x ∈ xs ∨ x ∈ items := by
  simp only [splice, mem_append] at h
  rcases h with (h | h) | h
  · exact .inl (mem_of_mem_take h)
  · exact .inr h
  · exact .inl (mem_of_mem_drop h)

/-! ## Allocations -/

/-- The symbolic bytes that an allocation holds are among the first `n`. -/
structure Allocation.Below (n : Nat) (a : Allocation) : Prop where
  cells : Cell.Below n a.cells
  pointers : ∀ r ∈ a.relocations, r.2.Below n

namespace Allocation

variable {n : Nat} {a : Allocation}

theorem Below.mono {k : Nat} (h : a.Below n) (hle : n ≤ k) : a.Below k :=
  ⟨h.cells.mono hle, fun r hr => (h.pointers r hr).mono hle⟩

theorem Below.splice {relocations : List (Nat × Pointer)} {defined : List Bool} (h : a.Below n)
    (hcells : Cell.Below n cells) (start stop : Int) (hsub : ∀ r ∈ relocations, r ∈ a.relocations) :
    { a with
      cells := splice a.cells start stop cells
      defined := defined
      relocations := relocations }.Below n := by
  refine ⟨(h.cells.append hcells).subset fun c hc => ?_, fun r hr => h.pointers r (hsub r hr)⟩
  exact mem_append.2 (mem_of_mem_splice hc)

theorem Below.clear (h : a.Below n) (start stop : Int) : (a.clear start stop).Below n :=
  ⟨h.cells, fun r hr => h.pointers r (mem_of_mem_filter hr)⟩

theorem Below.write (h : a.Below n) (hcells : Cell.Below n cells) (offset : Nat) :
    (a.write offset cells).Below n :=
  h.splice hcells _ _ fun _ hr => mem_of_mem_filter hr

theorem Below.mark (h : a.Below n) (offset : Nat) (size : Int) (defined : Bool) :
    (a.mark offset size defined).Below n := by
  cases defined with
  | true => exact ⟨h.cells, h.pointers⟩
  | false => exact ⟨h.cells, (h.clear _ _).pointers⟩

theorem Below.relocate (h : a.Below n) {p : Pointer} (hp : p.Below n) (offset : Nat) :
    (a.relocate offset p).Below n := by
  refine ⟨h.cells, fun r hr => ?_⟩
  rcases mem_append.1 hr with hr | hr
  · exact h.pointers r (mem_of_mem_filter hr)
  · rw [mem_singleton.1 hr]
    exact hp

theorem Below.foldl_relocate (h : a.Below n) {moved : List (Nat × Pointer)}
    (hmoved : ∀ r ∈ moved, r.2.Below n) (place : Nat → Nat) :
    (moved.foldl (fun b (o, target) => b.relocate (place o) target) a).Below n := by
  induction moved generalizing a with
  | nil => exact h
  | cons r moved ih =>
    exact ih (h.relocate (hmoved r mem_cons_self) _)
      fun q hq => hmoved q (mem_cons_of_mem r hq)

end Allocation

/-! ## Healthy memory -/

namespace Memory

variable {align size : Int} {m' : Memory} {p : Pointer}
  {region : Region} {v : Scalar} {c : Failure} {a : Allocation}

/-- The symbolic bytes that a memory holds are those of its store. -/
def Scoped (m : Memory) : Prop := ∀ x ∈ m.allocs, x.2.Below m.store.size

/-- A valid memory of bytes that exist, with a limit that can be used up. -/
structure Healthy (m : Memory) : Prop where
  valid : m.Valid
  limit : m.limit < maxCells
  bytes : m.Scoped

def scope (D : Prop) : Contract Memory := ⟨Scoped, fun m => m.store.size, D⟩

def contract (D : Prop) : Contract Memory := ⟨Healthy, fun m => m.store.size, D⟩

variable {D : Prop} {n : Nat} {m : Memory} {α : Type} {Q : Nat → α → Prop}

theorem survives_of_scope {act : Run Memory α} (hmaintains : Keeps Maintains act)
    (h : Survives (scope D) n Q act) : Survives (contract D) n Q act where
  ok {m m' a} hm hn hok := by
    obtain ⟨hscoped, hle, ha⟩ := h.ok hm.bytes hn hok
    have hevolves := hmaintains m hm.valid
    rw [final_of_ok hok] at hevolves
    exact ⟨⟨hevolves.valid, hevolves.limit ▸ hm.limit, hscoped⟩, hle, ha⟩
  error hm hn := h.error hm.bytes hn

theorem survives_onStore {act : Run Store α} (h : Survives (Store.contract D) n Q act) :
    Survives (scope D) n Q (onStore act) where
  ok {m m' a} hm hn hok := by
    unfold onStore at hok
    split at hok
    · rename_i hact
      cases hok
      obtain ⟨-, hle, ha⟩ := h.ok trivial hn hact
      exact ⟨fun x hx => (hm x hx).mono hle, hle, ha⟩
    · cases hok
  error {m m' c} hm hn herror := by
    unfold onStore at herror
    split at herror
    · cases herror
    · rename_i hact
      cases herror
      exact h.error trivial hn hact

/-! ## Contents -/

theorem Scoped.find? (h : m.Scoped) {id : Nat} (ha : m.find? id = some a) :
    a.Below m.store.size := h _ (mem_of_lookup ha)

theorem Scoped.checked (h : m.Scoped) {id offset : Nat}
    (ha : m.checked p size align = .ok (id, offset, a)) : a.Below m.store.size :=
  h.find? (checked_eq_ok ha).2.1

@[grind .] theorem fair_get (m : Memory) (id : Nat) : Fails EvalError.Fair (m.get id) := by
  unfold get
  split
  · exact .ok _
  · exact .error (.inl rfl)

theorem fair_checked (m : Memory) (p : Pointer) (hsize : Text.isPrintableInt size) (align : Int) :
    Fails EvalError.Fair (m.checked p size align) := by
  unfold checked
  split
  · exact .error (.inl rfl)
  · rename_i id offset
    refine .andThen (fair_get m id) fun a => .guard ?_ fun _ => .guard (.error (.inl rfl)) fun _ => .pure _
    exact .error (.of_number hsize rfl)

theorem survives_update (id : Nat) {f : Allocation → Allocation}
    (hf : ∀ k, n ≤ k → ∀ a : Allocation, a.Below k → (f a).Below k) :
    Lasts (scope D) n (modify (update id f)) := by
  refine .modify fun m hm hn => ⟨fun x hx => ?_, Nat.le_refl _⟩
  obtain ⟨y, hy, rfl⟩ := mem_update.1 hx
  dsimp only
  split
  · exact hf _ hn y.2 (hm y hy)
  · exact hm y hy

theorem survives_markPacked (p : Pointer) (hsize : Text.isPrintableInt size) :
    Lasts (scope D) n (markPacked p size) := by
  refine .getBind fun m _ _ => .check (fair_checked m p hsize 1) fun x _ => ?_
  exact survives_update x.1 fun _ _ a ha => ⟨ha.cells, ha.pointers⟩

theorem survives_writeBytes (p : Pointer) (hcells : Cell.Below n cells)
    (hlength : Text.isPrintableInt cells.length) (align : Int) :
    Lasts (scope D) n (writeBytes p cells align) := by
  unfold writeBytes
  split
  · exact .done
  · refine .getBind fun m _ hn => .check (fair_checked m p hlength align) fun x _ => ?_
    exact survives_update x.1 fun k hk a ha => ha.write (hcells.mono (hn.trans hk)) x.2.1

/-- Only a section that is too long to be made is fatal. -/
theorem survives_writeRepeat (p : Pointer) {cell : Cell} (hcell : Cell.Below n [cell]) {count : Int}
    (hcount : count < maxCells ∨ D) (align : Int) :
    Lasts (scope D) n (writeRepeat p cell count align) := by
  unfold writeRepeat
  refine .guard (fun hmax => .throw (.inr ?_)) fun _ => ?_
  · exact hcount.resolve_left (by omega)
  · split
    · exact .done
    · have hprintable := isPrintableInt_of_lt_maxCells (n := count) (by omega) (by omega)
      refine .getBind fun m _ hn => .check (fair_checked m p hprintable align) fun x _ => ?_
      refine survives_update x.1 fun k hk a ha => ha.write ?_ x.2.1
      refine (hcell.mono (hn.trans hk)).subset fun c hc => ?_
      rw [eq_of_mem_replicate hc]
      exact mem_singleton_self cell

theorem survives_markDefinedness (p : Pointer) (hsize : Text.isPrintableInt size) (defined : Bool) :
    Lasts (scope D) n (markDefinedness p size defined) := by
  unfold markDefinedness
  split
  · exact .done
  · refine .getBind fun m _ _ => .check (fair_checked m p hsize 1) fun x _ => ?_
    exact survives_update x.1 fun _ _ a ha => ha.mark x.2.1 size defined

theorem survives_makeSymbolic (p : Pointer) (hsize : Text.isPrintableInt size.toNat) :
    Lasts (scope D) n (makeSymbolic p size) := by
  have hlength : Yields (fun cells => cells.length = size.toNat) (onStore (Store.fresh size)) := by
    rintro m _ _ ⟨⟩
    simp only [Store.cellsFrom, length_map, length_range]
  refine .bind ((survives_onStore (Store.survives_fresh size)).yields hlength)
    fun _ _ cells hcells => ?_
  exact survives_writeBytes p hcells.1 (hcells.2 ▸ hsize) 1

theorem survives_copyBytes (source dest : Pointer) (hsize : Text.isPrintableInt size)
    (align : Int) :
    Lasts (scope D) n (copyBytes source dest size align) := by
  unfold copyBytes
  split
  · exact .done
  · refine .getBind fun m hm hn => .check (fair_checked m source hsize align) ?_
    rintro ⟨_, start, a⟩ hsource
    refine .check (fair_checked m dest hsize align) fun x _ => ?_
    refine survives_update x.1 fun k hk b hb => ?_
    have ha : a.Below k := (hm.checked hsource).mono hk
    refine Allocation.Below.foldl_relocate ?_ (fun r hr => ?_) fun o => x.2.1 + (o - start)
    · refine hb.splice (ha.cells.subset fun c hc => mem_of_mem_slice hc) _ _ fun r hr => ?_
      exact mem_of_mem_filter hr
    · exact ha.pointers r (mem_of_mem_filter hr)

theorem survives_writeScalar (p : Pointer) (hv : v.Below n) (hsize : 0 ≤ size)
    (hprintable : Text.isPrintableInt size) (align : Int) :
    Lasts (scope D) n (writeScalar p v size align) := by
  refine .getBind fun m _ hn => .check (fair_checked m p hprintable align) fun x _ => ?_
  cases v with
  | undef => exact survives_markDefinedness p hprintable false
  | ptr target =>
    refine .guard (fun _ => .fail _ (.inl rfl)) fun _ => ?_
    refine .bind (survives_writeBytes p (Cell.below_replicate _ _ 0)
      (Text.isPrintableInt_of_lt (by decide)) 1) fun k hk _ _ => ?_
    exact survives_update x.1 fun i hi a ha => ha.relocate (hv.mono ((hn.trans hk).trans hi)) x.2.1
  | cells list =>
    refine .guard (fun _ => .fail _ ?_) fun hlength => ?_
    · exact .of_number hprintable rfl
    · exact survives_writeBytes p (hv.mono hn) (not_not.1 hlength ▸ hprintable) 1
  | bits pattern =>
    refine .guard (fun hneg => by omega) fun _ => ?_
    have hlength : size = (Cell.ofNat pattern.toNat size.toNat).length := by
      simp only [Cell.length_ofNat, Int.toNat_of_nonneg hsize]
    exact survives_writeBytes p (Cell.below_ofNat _ _ _) (hlength ▸ hprintable) 1

/-! ## Reading -/

theorem fair_readBytes (m : Memory) (p : Pointer) (hsize : Text.isPrintableInt size) (align : Int) :
    Fails EvalError.Fair (m.readBytes p size align) := by
  have hbytes : EvalError.pointerAsBytes.Fair := .inl rfl
  have hundefined : EvalError.undefinedRead.Fair := .inl rfl
  unfold readBytes
  split
  · exact .pure _
  · refine .andThen (fair_checked m p hsize align) fun x => ?_
    exact .guard (.error hbytes) fun _ => .guard (.error hundefined) fun _ => .pure _

theorem fair_readScalar (m : Memory) (p : Pointer) (hsize : Text.isPrintableInt size)
    (kind : Kind) (align : Int) : Fails EvalError.Fair (m.readScalar p size kind align) := by
  have hbytes : EvalError.pointerAsBytes.Fair := .inl rfl
  unfold readScalar
  refine .andThen (fair_checked m p hsize align) fun x => ?_
  dsimp only
  split
  · split <;> exact .pure _
  · split
    · split
      · exact .pure _
      · exact .error hbytes
    · exact .error hbytes

theorem below_readScalar {kind : Kind} (hm : m.Scoped) (h : m.readScalar p size kind align = .ok v) :
    v.Below m.store.size := by
  obtain ⟨⟨_, offset, a⟩, ha, h⟩ := bind_iff.1 h
  have hbelow := hm.checked ha
  dsimp only at h
  split at h
  · split at h
    · cases h
      trivial
    · cases h
      exact Scalar.below_ofCells
        (hbelow.cells.subset fun c hc => mem_of_mem_slice hc) kind
  · split at h
    · rename_i target hlookup
      split at h
      · cases h
        exact hbelow.pointers _ (mem_of_lookup hlookup)
      · cases h
    · cases h

/-! ## Allocations -/

/-- There are never more free bytes than can be made. -/
theorem Healthy.free (h : m.Healthy) : 0 ≤ m.limit - m.usage ∧ m.limit - m.usage < maxCells := by
  have hused : 0 ≤ m.usage := h.valid.usage ▸ held_nonneg _
  have hwithin := h.valid.within
  have hlimit := h.limit
  omega

/-- An allocation that cannot be made is an error of the path. -/
theorem local_of_allocate (hm : m.Healthy) (hsize : Text.isPrintableInt size)
    (h : allocate size align region m = .error c m') : c.IsLocal := by
  obtain ⟨hfree, hmax⟩ := hm.free
  have hprintable := isPrintableInt_of_lt_maxCells hfree hmax
  rw [allocate_eq, failReporting_apply] at h
  split_ifs at h with halign hlack hall hcells
  · cases h
    exact ⟨_, rfl, .inl rfl⟩
  · cases h
    exact ⟨_, rfl, .inl rfl⟩
  · -- the message shows the size and what is free
    simp [hsize, hprintable] at hall
  · omega

theorem scoped_allocate (hm : m.Scoped) (h : allocate size align region m = .ok p m') :
    m'.Scoped ∧ m'.store = m.store ∧ p = .known m.next 0 := by
  obtain ⟨rfl, rfl⟩ := allocate_eq_ok h
  refine ⟨fun x hx => ?_, rfl, rfl⟩
  rcases mem_append.1 hx with hx | hx
  · exact hm x hx
  · rw [mem_singleton.1 hx]
    exact ⟨Cell.below_replicate _ _ 0, by simp [fresh]⟩

theorem survives_allocate (hsize : 0 ≤ size) (hprintable : Text.isPrintableInt size = true ∨ D)
    (align : Int) (region : Region) :
    Survives (contract D) n (fun _ p => ∃ id, p = .known id 0) (allocate size align region) where
  ok {m m' p} hm hn hok := by
    obtain ⟨hscoped, hstore, hp⟩ := scoped_allocate hm.bytes hok
    have hevolves := maintains_allocate hsize align region m hm.valid
    rw [final_of_ok hok] at hevolves
    exact ⟨⟨hevolves.valid, hevolves.limit ▸ hm.limit, hscoped⟩, (congrArg Store.size hstore).ge,
      _, hp⟩
  error hm _ herror := hprintable.imp_left fun h => local_of_allocate hm h herror

theorem survives_fillWith (id : Nat) (hcells : Cell.Below n cells) :
    Lasts (scope D) n (fillWith id cells) :=
  survives_update id fun _ hk _ ha => ⟨hcells.mono hk, ha.pointers⟩

theorem survives_allocateStatic {data : List (BitVec 8)}
    (hprintable : Text.isPrintableInt data.length = true ∨ D) :
    Survives (contract D) n (fun _ p => ∃ id, p = .known id 0) (allocateStatic data) where
  ok {m m' p} hm hn hok := by
    have hevolves := maintains_allocateStatic data m hm.valid
    rw [final_of_ok hok] at hevolves
    obtain ⟨q, m1, hq, hok⟩ := bind_eq_ok.1 hok
    obtain ⟨_, m2, hfill, ⟨⟩⟩ := bind_eq_ok.1 hok
    obtain ⟨hscoped, hstore, rfl⟩ := scoped_allocate hm.bytes hq
    have hdata : Cell.Below n (data.map Cell.known) := Cell.below_of_known fun c hc => by
      obtain ⟨b, -, rfl⟩ := mem_map.1 hc
      exact ⟨b, rfl⟩
    have hsize : m1.store.size = m.store.size := congrArg Store.size hstore
    obtain ⟨hscoped', hle, -⟩ := (survives_fillWith (D := D) m.next hdata).ok hscoped
      (Nat.le_trans hn hsize.ge) hfill
    exact ⟨⟨hevolves.valid, hevolves.limit ▸ hm.limit, hscoped'⟩, Nat.le_trans hsize.ge hle, _, rfl⟩
  error {m m' c} hm _ herror := by
    refine hprintable.imp_left fun h => ?_
    -- filling what was allocated does not fail
    cases hallocate : allocate data.length 1 .static m with
    | ok p m1 =>
      rw [allocateStatic, bind_of_ok hallocate] at herror
      cases herror
    | error c' m1 =>
      rw [allocateStatic, bind_of_error hallocate] at herror
      cases herror
      exact local_of_allocate hm h hallocate

theorem Scoped.free (h : m.Scoped) (id : Nat) (a : Allocation) : (m.free id a).Scoped :=
  fun x hx => h x (mem_of_mem_filter hx)

theorem local_of_deallocate {r : Region} (h : deallocate p (some r) m = .error c m') :
    c.IsLocal := by
  cases p with
  | symbolic id o =>
    cases h
    exact ⟨_, rfl, .inl rfl⟩
  | known id offset =>
    cases offset with
    | succ offset =>
      cases h
      exact ⟨_, rfl, .inl rfl⟩
    | zero =>
      rw [deallocate_eq] at h
      split at h
      · cases h
        exact ⟨_, rfl, .inl rfl⟩
      · dsimp only at h
        split_ifs at h
        · cases h
          exact ⟨_, rfl, .inl rfl⟩
        · cases h
          exact ⟨_, rfl, .inl rfl⟩

theorem survives_deallocate (p : Pointer) (r : Region) :
    Lasts (contract D) n (deallocate p (some r)) := by
  refine survives_of_scope (maintains_deallocate p (some r)) ⟨fun hm _ hok => ?_, fun _ _ herror => ?_⟩
  · obtain ⟨id, a, rfl, -, -, rfl⟩ := deallocate_eq_ok hok
    exact ⟨hm.free id a, Nat.le_refl _, trivial⟩
  · exact .inl (local_of_deallocate herror)

end Memory
end SymExec

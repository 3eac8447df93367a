import SymExec.Proofs.Growth

/-!
# Contents of memory

Operations on memory look at bounds, alignment, definedness and at where pointers are stored. They
look neither at the bytes nor at what stored pointers lead to. So on a memory with other bytes and
other pointers in the place of its own (`Memory.map`) an operation ends as it does on the memory: it
raises the same error, or returns, and leaves the same memory with the other contents
(`Run.Commutes`). What commutes in its parts commutes as a whole (`Commutes.bind`), so each operation
needs one lemma about its own steps.
-/
namespace SymExec

open Section List

/-! ## Computations on another view of their state -/

namespace Run

variable {σ α α' β β' γ : Type}

/-- How a computation ends, its result seen through `f` and its state through `g`. -/
def mapEnd (f : α → β) (g : σ → σ) : EStateM.Result Failure σ α → EStateM.Result Failure σ β
  | .ok a s => .ok (f a) (g s)
  | .error e s => .error e (g s)

/-- `act'` ends on the state seen through `g` as `act` does on the state. -/
def Commutes (f : α → α') (g : σ → σ) (act : Run σ α) (act' : Run σ α') (s : σ) : Prop :=
  act' (g s) = mapEnd f g (act s)

namespace Commutes

variable {f : α → α'} {h : β → β'} {g : σ → σ} {s : σ}

theorem pure (f : α → α') (g : σ → σ) (a : α) (s : σ) :
    Commutes f g (pure a : Run σ α) (pure (f a) : Run σ α') s := rfl

theorem bind {act : Run σ α} {act' : Run σ α'} {k : α → Run σ β} {k' : α' → Run σ β'}
    (hact : Commutes f g act act' s)
    (hk : ∀ a s1, act s = .ok a s1 → Commutes h g (k a) (k' (f a)) s1) :
    Commutes h g (act >>= k) (act' >>= k') s := by
  unfold Commutes at hact ⊢
  cases hend : act s with
  | ok a s1 =>
    rw [hend] at hact
    rw [bind_of_ok hend, bind_of_ok hact]
    exact hk a s1 hend
  | error e s1 =>
    rw [hend] at hact
    rw [bind_of_error hend, bind_of_error hact]
    rfl

theorem getBind {k : σ → Run σ α} {k' : σ → Run σ α'} (hk : Commutes f g (k s) (k' (g s)) s) :
    Commutes f g (getThe σ >>= k) (getThe σ >>= k') s := hk

theorem checkBind {e : Except EvalError γ} {e' : Except EvalError γ} {view : γ → γ}
    {k : γ → Run σ α} {k' : γ → Run σ α'} (he : e' = e.map view)
    (hk : ∀ c, e = .ok c → Commutes f g (k c) (k' (view c)) s) :
    Commutes f g ((liftM e : Run σ γ) >>= k) ((liftM e' : Run σ γ) >>= k') s := by
  subst he
  cases e with
  | ok c => exact hk c rfl
  | error x => rfl

theorem modify {change change' : σ → σ} (hchange : change' (g s) = g (change s)) :
    Commutes id g (modify change : Run σ Unit) (modify change') s :=
  congrArg (EStateM.Result.ok ()) hchange

end Commutes
end Run

/-! ## Lists -/

namespace Section

variable {α β : Type} (f : α → β) (xs : List α)

@[simp] theorem map_slice (start stop : Int) : slice (xs.map f) start stop
    = (slice xs start stop).map f := by
  simp [slice]

@[simp] theorem map_splice (start stop : Int) (items : List α) :
    splice (xs.map f) start stop (items.map f) = (splice xs start stop items).map f := by
  simp [splice]

@[simp] theorem map_item? (index : Int) : item? (xs.map f) index = (item? xs index).map f := by
  unfold item?
  simp only [getElem?_map, length_map]
  split
  · rfl
  · split <;> rfl

end Section

theorem lookup_map_snd {α β : Type} (f : α → β) (xs : List (Nat × α)) (k : Nat) :
    (xs.map fun (i, a) => (i, f a)).lookup k = (xs.lookup k).map f := by
  induction xs with
  | nil => rfl
  | cons x xs ih =>
    rw [map_cons, lookup_cons, lookup_cons]
    cases k == x.1 with
    | true => rfl
    | false => exact ih

/-! ## Allocations -/

namespace Allocation

def map (f : Cell → Cell) (g : Pointer → Pointer) (a : Allocation) : Allocation :=
  { a with
    cells := a.cells.map f
    relocations := a.relocations.map fun (offset, p) => (offset, g p) }

variable (f : Cell → Cell) (g : Pointer → Pointer) (a : Allocation)

@[simp] theorem cells_map : (a.map f g).cells = a.cells.map f := rfl

@[simp] theorem size_map : (a.map f g).size = a.size := by
  simp [map, size]

@[simp] theorem relocationsIn_map (start stop : Int) :
    (a.map f g).relocationsIn start stop = a.relocationsIn start stop := by
  simp [map, relocationsIn, Function.comp_def]

@[simp] theorem lookup_map (offset : Nat) :
    (a.map f g).relocations.lookup offset = (a.relocations.lookup offset).map g :=
  lookup_map_snd g a.relocations offset

@[simp] theorem clear_map (start stop : Int) :
    (a.map f g).clear start stop = (a.clear start stop).map f g := by
  simp [map, clear, filter_map, Function.comp_def]

@[simp] theorem relocate_map (offset : Nat) (p : Pointer) :
    (a.map f g).relocate offset (g p) = (a.relocate offset p).map f g := by
  simp [map, relocate, filter_map, Function.comp_def]

@[simp] theorem write_map (offset : Nat) (cells : List Cell) :
    (a.map f g).write offset (cells.map f) = (a.write offset cells).map f g := by
  simp [map, write, clear, filter_map, Function.comp_def]

@[simp] theorem mark_map (offset : Nat) (size : Int) (defined : Bool) :
    (a.map f g).mark offset size defined = (a.mark offset size defined).map f g := by
  cases defined <;> simp [map, mark, clear, filter_map, Function.comp_def]

@[simp] theorem definedIn_map (start stop : Int) :
    (a.map f g).definedIn start stop = a.definedIn start stop := rfl

theorem foldl_relocate_map (moved : List (Nat × Pointer)) (place : Nat → Nat) :
    (moved.map fun (o, p) => (o, g p)).foldl (fun b (o, p) => b.relocate (place o) p) (a.map f g)
      = (moved.foldl (fun b (o, p) => b.relocate (place o) p) a).map f g := by
  induction moved generalizing a with
  | nil => rfl
  | cons x moved ih => simp only [map_cons, foldl_cons, relocate_map, ih]

end Allocation

/-! ## Memories -/

namespace Memory

open Run

variable {p : Pointer} {a : Allocation}
  {align size : Int} {offset : Nat} {change change' : Allocation → Allocation}

/-- The memory with other bytes and other pointers, and with a given store. -/
def map (f : Cell → Cell) (g : Pointer → Pointer) (s : Store) (m : Memory) : Memory :=
  { m with allocs := m.allocs.map fun (k, a) => (k, a.map f g), store := s }

/-- The allocation after bytes and pointers were copied into it. -/
def received (cells : List Cell) (defined : List Bool) (moved : List (Nat × Pointer)) (start offset : Nat)
    (size : Int) (b : Allocation) : Allocation :=
  let b := b.clear offset (offset + size)
  let b := { b with
    cells := splice b.cells offset (offset + size) cells
    defined := splice b.defined offset (offset + size) defined }
  moved.foldl (fun b (o, target) => b.relocate (offset + (o - start)) target) b

def scalarAt (a : Allocation) (offset : Nat) (size : Int) (kind : Kind) : Except EvalError Scalar :=
  match a.relocationsIn offset (offset + size) with
  | [] =>
    if !a.definedIn offset (offset + size) then .ok .undef
    else .ok (.ofCells (slice a.cells offset (offset + size)) kind)
  | found =>
    match a.relocations.lookup offset with
    | some target =>
      if found = [offset] ∧ size = pointerSize then .ok (.ptr target) else .error .pointerAsBytes
    | none => .error .pointerAsBytes

variable {f : Cell → Cell} {g : Pointer → Pointer} {s : Store} {m : Memory}

theorem get_eq_ok {id : Nat} : m.get id = .ok a ↔ m.find? id = some a := by
  unfold get
  cases m.find? id <;> simp

theorem readScalar_eq (kind : Kind) {id : Nat} (h : m.checked p size align = .ok (id, offset, a)) :
    m.readScalar p size kind align = scalarAt a offset size kind := by
  unfold readScalar
  rw [h]
  rfl

theorem readBytes_eq {id : Nat} (hsize : size ≠ 0)
    (h : m.checked p size align = .ok (id, offset, a)) :
    m.readBytes p size align =
      if a.relocationsIn offset (offset + size) = [] then
        if a.definedIn offset (offset + size) then
          .ok (slice a.cells offset (offset + size))
        else .error .undefinedRead
      else .error .pointerAsBytes := by
  unfold readBytes
  rw [if_neg hsize, h]
  cases hfound : a.relocationsIn offset (offset + size) with
  | nil =>
    cases hdefined : a.definedIn offset (offset + size) <;>
      (simp [bind, Except.bind, hfound, hdefined]; rfl)
  | cons o found => simp [bind, Except.bind, hfound]; rfl

@[simp] theorem find?_map (id : Nat) : (m.map f g s).find? id = (m.find? id).map (Allocation.map f g) :=
  lookup_map_snd (Allocation.map f g) m.allocs id

theorem get_map (id : Nat) : (m.map f g s).get id = (m.get id).map (Allocation.map f g) := by
  unfold get
  rw [find?_map]
  cases m.find? id <;> rfl

theorem update_map (id : Nat) (h : ∀ a, change' (a.map f g) = (change a).map f g) :
    (m.map f g s).update id change' = (m.update id change).map f g s := by
  simp only [update, map, map_map, Memory.mk.injEq, true_and, and_true]
  refine map_congr_left fun x _ => ?_
  simp only [Function.comp_apply]
  split
  · rw [h]
  · rfl

theorem free_map (id : Nat) (a : Allocation) :
    (m.map f g s).free id (a.map f g) = (m.free id a).map f g s := by
  simp [map, free, filter_map, Function.comp_def]

/-- An access is checked without a look at the contents. -/
theorem checked_map (p : Pointer) (size align : Int) :
    (m.map f g s).checked p size align
      = (m.checked p size align).map fun (id, offset, a) => (id, offset, a.map f g) := by
  cases p with
  | symbolic id o => rfl
  | known id offset =>
    simp only [checked, get_map]
    cases m.get id with
    | error e => rfl
    | ok a =>
      simp only [Except.map, bind, Except.bind, pure, Except.pure, Allocation.size_map]
      by_cases hout : (a.size : Int) < offset + size
      · rw [if_pos hout, if_pos hout]
        rfl
      · rw [if_neg hout, if_neg hout]
        by_cases hbad : (1 < align && !a.isPacked offset size
            && (a.align < align || offset % align ≠ 0) : Bool) = true
        · rw [if_pos hbad]
          exact if_pos hbad
        · rw [if_neg hbad]
          exact if_neg hbad

theorem received_map (cells : List Cell) (defined : List Bool) (moved : List (Nat × Pointer))
    (start offset : Nat) (size : Int) (b : Allocation) :
    received (cells.map f) defined (moved.map fun (o, p) => (o, g p)) start offset size (b.map f g)
      = (received cells defined moved start offset size b).map f g := by
  unfold received
  rw [← Allocation.foldl_relocate_map f g _ moved (fun o => offset + (o - start)),
    Allocation.clear_map]
  simp [Allocation.map]

/-! ## Operations -/

theorem commutes_update (k : Nat) (h : ∀ a, change' (a.map f g) = (change a).map f g) :
    Commutes id (map f g s) (modify (update k change) : Run Memory Unit) (modify (update k change')) m :=
  .modify (update_map k h)

/-- An access is checked in the same way, so what follows it may take the check for granted. -/
theorem commutes_checked {α α' : Type} {view : α → α'} {k : Nat × Nat × Allocation → Run Memory α}
    {k' : Nat × Nat × Allocation → Run Memory α'}
    (hk : ∀ id offset a, m.checked p size align = .ok (id, offset, a) →
      Commutes view (map f g s) (k (id, offset, a)) (k' (id, offset, a.map f g)) m) :
    Commutes view (map f g s)
      (do
        let m ← getThe Memory
        let x ← m.checked p size align
        k x)
      (do
        let m ← getThe Memory
        let x ← m.checked p size align
        k' x) m :=
  .getBind (.checkBind (checked_map p size align) fun x hx => hk x.1 x.2.1 x.2.2 hx)

theorem commutes_deallocate (p : Pointer) (region : Option Region) :
    Commutes id (map f g s) (deallocate p region) (deallocate p region) m := by
  match p with
  | .symbolic _ _ => rfl
  | .known id (n + 1) => rfl
  | .known id 0 =>
    unfold Commutes
    rw [deallocate_eq, deallocate_eq, find?_map]
    cases m.find? id with
    | none => rfl
    | some a =>
      have hregion : (a.map f g).region = a.region := rfl
      simp only [Option.map_some, free_map, hregion]
      by_cases hstatic : a.region = .static
      · rw [if_pos hstatic, if_pos hstatic]
        rfl
      · rw [if_neg hstatic, if_neg hstatic]
        cases region with
        | none => rfl
        | some r =>
          simp only
          split <;> rfl

theorem commutes_markPacked (p : Pointer) (size : Int) :
    Commutes id (map f g s) (markPacked p size) (markPacked p size) m :=
  commutes_checked fun id _ _ _ => commutes_update id fun _ => rfl

theorem commutes_writeBytes (p : Pointer) (cells : List Cell) (align : Int) :
    Commutes id (map f g s) (writeBytes p cells align) (writeBytes p (cells.map f) align) m := by
  unfold writeBytes
  rw [isEmpty_map, length_map]
  split
  · exact .pure id _ () m
  · exact commutes_checked fun id offset _ _ => commutes_update id fun a =>
      a.write_map f g offset cells

theorem commutes_writeRepeat (p : Pointer) (cell : Cell) (count align : Int) :
    Commutes id (map f g s) (writeRepeat p cell count align) (writeRepeat p (f cell) count align) m := by
  unfold writeRepeat
  by_cases hmax : maxCells ≤ count
  · rw [if_pos hmax, if_pos hmax]
    rfl
  · rw [if_neg hmax, if_neg hmax]
    by_cases hnone : count ≤ 0
    · rw [if_pos hnone, if_pos hnone]
      exact .pure id _ () m
    · rw [if_neg hnone, if_neg hnone]
      refine commutes_checked fun id offset _ _ => commutes_update id fun a => ?_
      rw [← map_replicate, a.write_map]

theorem commutes_markDefinedness (p : Pointer) (size : Int) (defined : Bool) :
    Commutes id (map f g s) (markDefinedness p size defined) (markDefinedness p size defined) m := by
  unfold markDefinedness
  split
  · exact .pure id _ () m
  · exact commutes_checked fun id offset _ _ => commutes_update id fun a =>
      a.mark_map f g offset size defined

theorem commutes_copyBytes (source dest : Pointer) (size align : Int) :
    Commutes id (map f g s) (copyBytes source dest size align) (copyBytes source dest size align) m := by
  unfold copyBytes
  split
  · exact .pure id _ () m
  · refine .getBind (.checkBind (checked_map source size align) ?_)
    rintro ⟨_, start, a⟩ -
    refine .checkBind (checked_map dest size align) ?_
    rintro ⟨id, offset, b⟩ -
    refine commutes_update id fun b => ?_
    have hcells : slice (a.map f g).cells start (start + size)
        = (slice a.cells start (start + size)).map f := map_slice _ _ _ _
    have hmoved : (a.map f g).relocations.filter
          (fun (o, _) => start ≤ o && (o : Int) + pointerSize ≤ start + size)
        = (a.relocations.filter
            (fun (o, _) => start ≤ o && (o : Int) + pointerSize ≤ start + size)).map
          fun (o, p) => (o, g p) := by
      simp [Allocation.map, filter_map, Function.comp_def]
    change received (slice (a.map f g).cells start (start + size)) _
      ((a.map f g).relocations.filter _) start offset size (b.map f g) = _
    rw [hcells, hmoved, received_map]
    rfl

theorem commutes_writePointer (p target : Pointer) (size align : Int) (hzero : f (.known 0) = .known 0) :
    Commutes id (map f g s) (writeScalar p (.ptr target) size align)
      (writeScalar p (.ptr (g target)) size align) m := by
  refine commutes_checked fun id offset a _ => ?_
  by_cases hsize : size ≠ pointerSize
  · simp only [hsize, if_true, not_false_eq_true, ne_eq]
    rfl
  · simp only [hsize, if_false]
    have hwrite := commutes_writeBytes (f := f) (g := g) (s := s) (m := m) p
      (replicate pointerSize (.known 0)) 1
    rw [map_replicate, hzero] at hwrite
    exact .bind hwrite fun _ _ _ => commutes_update id fun b => b.relocate_map f g offset target

theorem readBytes_map (p : Pointer) (size align : Int) :
    (m.map f g s).readBytes p size align = (m.readBytes p size align).map (List.map f) := by
  unfold readBytes
  split
  · rfl
  · rw [checked_map]
    cases m.checked p size align with
    | error e => rfl
    | ok x =>
      simp only [Except.map, bind, Except.bind, pure, Except.pure, Allocation.relocationsIn_map,
        Allocation.definedIn_map, Allocation.cells_map, map_slice]
      split
      · rfl
      · split <;> rfl

end Memory
end SymExec

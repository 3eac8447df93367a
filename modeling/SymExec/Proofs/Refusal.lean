import SymExec.Proofs.Memory

/-!
# Operations that are refused

An operation on memory checks all that it needs before it changes anything, so one that raises an error
leaves the allocations, the bytes in use and the next number as they were. Where operations are made of
others, what follows the first change cannot fail any more (`Run.Atomic.andThen`). Only the bytes that
were asked of the store stay there when they cannot be written (`Memory.Op.unchanged_of_error`).
-/
namespace SymExec

namespace Run

variable {σ α β : Type} {s : σ}

/-- If a computation raises an error, it leaves the state as it was. -/
def Atomic (act : Run σ α) (s : σ) : Prop := ∀ e s', act s = .error (.error e) s' → s' = s

namespace Atomic

theorem ok {act : Run σ α} {a : α} {s' : σ} (h : act s = .ok a s') : Atomic act s := by
  intro e s1 herror
  cases h.symm.trans herror

theorem error {act : Run σ α} {c : Failure} (h : act s = .error c s) : Atomic act s := by
  intro e s' herror
  cases h.symm.trans herror
  rfl

theorem check {e : Except EvalError β} {f : β → Run σ α} (hf : ∀ b, e = .ok b → Atomic (f b) s) :
    Atomic ((liftM e : Run σ β) >>= f) s := by
  cases e with
  | ok b => exact hf b rfl
  | error x => exact error (c := .error x) rfl

/-- Behind the first change, nothing is raised. -/
theorem andThen {act : Run σ α} {f : α → Run σ β} (hact : Atomic act s)
    (hf : ∀ a s1 e s', f a s1 ≠ .error (.error e) s') : Atomic (act >>= f) s := by
  intro e s' h
  cases hend : act s with
  | ok a s1 =>
    rw [bind_of_ok hend] at h
    exact absurd h (hf a s1 e s')
  | error c s1 =>
    rw [bind_of_error hend] at h
    cases h
    exact hact e s' hend

end Atomic
end Run

open Run

namespace Memory

variable (p : Pointer) (size : Int)

theorem atomic_allocate (align : Int) (region : Region) (m : Memory) :
    Atomic (allocate size align region) m := by
  intro e m' h
  rw [allocate_eq, failReporting_apply] at h
  split_ifs at h <;> cases h <;> rfl

/-- The contents are filled in when there is room, which cannot fail. -/
theorem atomic_allocateAbstract (align : Int) (m : Memory) :
    Atomic (allocateAbstract size align) m :=
  (atomic_allocate size align .abstract m).andThen fun _ _ _ _ => nofun

theorem atomic_allocateStatic (data : List (BitVec 8)) (m : Memory) : Atomic (allocateStatic data) m :=
  (atomic_allocate data.length 1 .static m).andThen fun _ _ _ _ => nofun

theorem atomic_deallocate (region : Option Region) (m : Memory) :
    Atomic (deallocate p region) m := by
  by_cases hp : ∃ id, p = .known id 0
  · obtain ⟨id, rfl⟩ := hp
    intro e m' h
    rw [deallocate_eq] at h
    split at h
    · cases h
      rfl
    · split at h
      · cases h
        rfl
      · split at h
        · cases h
        · split at h <;> cases h
          rfl
  · unfold deallocate
    split
    · exact absurd ⟨_, rfl⟩ hp
    · exact .error rfl

theorem atomic_markPacked (m : Memory) : Atomic (markPacked p size) m :=
  .check fun _ _ => .ok rfl

theorem writeBytes_of_error {p : Pointer} {cells : List Cell} {align : Int} {m m' : Memory} {c : Failure}
    (h : writeBytes p cells align m = .error c m') : m' = m := by
  unfold writeBytes at h
  split at h
  · cases h
  · rw [bind_of_ok (getThe_apply m)] at h
    cases hchecked : m.checked p cells.length align with
    | ok x =>
      rw [hchecked] at h
      cases h
    | error e =>
      rw [hchecked] at h
      cases h
      rfl

theorem atomic_writeBytes (cells : List Cell) (align : Int) (m : Memory) :
    Atomic (writeBytes p cells align) m :=
  fun _ _ => writeBytes_of_error

theorem atomic_writeRepeat (cell : Cell) (count align : Int) (m : Memory) :
    Atomic (writeRepeat p cell count align) m := by
  unfold writeRepeat
  by_cases hmax : (maxCells : Int) ≤ count
  · simp only [hmax, if_true]
    exact .error rfl
  · simp only [hmax, if_false]
    split
    · exact .ok rfl
    · exact .check fun _ _ => .ok rfl

theorem atomic_markDefinedness (defined : Bool) (m : Memory) :
    Atomic (markDefinedness p size defined) m := by
  unfold markDefinedness
  split
  · exact .ok rfl
  · exact .check fun _ _ => .ok rfl

/-- Both ends are checked before the destination is written. -/
theorem atomic_copyBytes (source dest : Pointer) (size align : Int) (m : Memory) :
    Atomic (copyBytes source dest size align) m := by
  unfold copyBytes
  split
  · exact .ok rfl
  · exact .check fun _ _ => .check fun _ _ => .ok rfl

theorem atomic_writeScalar (v : Scalar) (size align : Int) (m : Memory) :
    Atomic (writeScalar p v size align) m := by
  refine .check fun place _ => ?_
  obtain ⟨id, offset, a⟩ := place
  cases v with
  | undef => exact atomic_markDefinedness p size false m
  | ptr target =>
    dsimp only
    split
    · exact .error rfl
    · exact (atomic_writeBytes p _ 1 m).andThen fun _ _ _ _ => nofun
  | cells list =>
    dsimp only
    split
    · exact .error rfl
    · exact atomic_writeBytes p list 1 m
  | bits pattern =>
    dsimp only
    split
    · exact .error rfl
    · exact atomic_writeBytes p _ 1 m

/-- The fresh bytes are in the store before the place is checked. -/
theorem makeSymbolic_of_error {p : Pointer} {size : Int} {m m' : Memory} {c : Failure}
    (h : makeSymbolic p size m = .error c m') :
    m' = { m with store := (m.store.addInput size.toNat).2 } :=
  writeBytes_of_error (show writeBytes p _ 1 _ = _ from h)

/-- An operation that raises an error leaves the allocations with all that is in them, the bytes in use
and the next number as they were. Nothing else changes either, but that the bytes stay in the store
which were to be made symbolic. -/
theorem Op.unchanged_of_error {op : Op} {m m' : Memory} {e : EvalError}
    (h : op.run m = .error (.error e) m') :
    m'.allocs = m.allocs ∧ m'.usage = m.usage ∧ m'.next = m.next ∧
    (m' = m ∨ ∃ p size, op = .makeSymbolic p size ∧
      m' = { m with store := (m.store.addInput size.toNat).2 }) := by
  have hact {α β : Type} {act : Run Memory α} {f : α → β}
      (h : (do return f (← act)) m = .error (.error e) m') : act m = .error (.error e) m' := by
    cases hend : act m with
    | ok a m1 =>
      rw [bind_of_ok hend] at h
      cases h
    | error c m1 =>
      rw [bind_of_error hend] at h
      cases h
      rfl
  have hsame : m' = m ∨ ∃ p size, op = .makeSymbolic p size ∧
      m' = { m with store := (m.store.addInput size.toNat).2 } := by
    cases op with
    | allocate size align region => exact .inl (atomic_allocate size align region m e m' (hact h))
    | allocateAbstract size align => exact .inl (atomic_allocateAbstract size align m e m' (hact h))
    | allocateStatic data => exact .inl (atomic_allocateStatic data m e m' (hact h))
    | deallocate p region => exact .inl (atomic_deallocate p region m e m' (hact h))
    | markPacked p size => exact .inl (atomic_markPacked p size m e m' (hact h))
    | writeBytes p cells align => exact .inl (atomic_writeBytes p cells align m e m' (hact h))
    | writeRepeat p cell count align => exact .inl (atomic_writeRepeat p cell count align m e m' (hact h))
    | markDefinedness p size defined =>
      exact .inl (atomic_markDefinedness p size defined m e m' (hact h))
    | makeSymbolic p size => exact .inr ⟨p, size, rfl, makeSymbolic_of_error (hact h)⟩
    | copyBytes source dest size align =>
      exact .inl (atomic_copyBytes source dest size align m e m' (hact h))
    | writeScalar p v size align => exact .inl (atomic_writeScalar p v size align m e m' (hact h))
  rcases hsame with rfl | ⟨p, size, hop, rfl⟩
  · exact ⟨rfl, rfl, rfl, .inl rfl⟩
  · exact ⟨rfl, rfl, rfl, .inr ⟨p, size, hop, rfl⟩⟩

/-- A pointer is refused by a slot of four bytes, a copy by its destination only, and a fresh byte by the
end of the allocation. -/
theorem Op.unchanged_of_error_sample :
    let m : Memory := { limit := 64, usage := 8, next := 2, allocs := [(1, ⟨List.replicate 8 (.known 7),
      List.replicate 8 true, 8, .heap, [], []⟩)] }
    ∀ op ∈ [Op.writeScalar (.known 1 0) (.ptr (.known 1 0)) 4 4, .copyBytes (.known 1 4) (.known 1 5) 4 1,
      .makeSymbolic (.known 1 8) 1],
      ∃ e m', op.run m = .error (.error e) m' ∧ m'.allocs = m.allocs ∧ m'.usage = 8 ∧ m'.next = 2 := by
  intro m op hop
  have hrefused : ∃ e m', op.run m = .error (.error e) m' := by
    simp only [List.mem_cons, List.not_mem_nil, or_false] at hop
    rcases hop with rfl | rfl | rfl <;> exact ⟨_, _, rfl⟩
  obtain ⟨e, m', h⟩ := hrefused
  obtain ⟨hallocs, husage, hnext, -⟩ := unchanged_of_error h
  exact ⟨e, m', h, hallocs, husage, hnext⟩

end Memory
end SymExec

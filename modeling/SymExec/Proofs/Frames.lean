import SymExec.Proofs.Path

/-!
# The call stack

What is done to memory and store leaves the frames alone (`Machine.Stays`). So along a path the
innermost frame goes on to its next statement or to a block that its terminator names, a call puts a
frame on top of it, and a return takes it away (`Machine.Moves`). Where a branch of a fork fails, the
frames stay and the next step raises (`Leads.moves`).
-/
namespace SymExec

open Run List

def Terminator.successors : Terminator → List Int
  | .goto target => [target]
  | .switch _ _ targets otherwise => targets ++ [otherwise]
  | .assert _ _ target _ => [target]
  | .call c => c.target.toList
  | .ret | .abort | .unreachable => []

def Terminator.message? : Terminator → Option Json
  | .assert _ _ _ message => some message
  | _ => none

namespace Machine

/-! ## What leaves the frames alone -/

structure Stays (m m' : Machine) : Prop where
  program : m'.program = m.program
  stack : m'.stack = m.stack

theorem stays_onMemory {α : Type} (act : Run Memory α) : Keeps Stays (onMemory act) := fun m => by
  rw [final_onMemory]
  exact ⟨rfl, rfl⟩

theorem stays_composes : Composes Stays where
  refl _ := ⟨rfl, rfl⟩
  trans h h' := ⟨h'.program.trans h.program, h'.stack.trans h.stack⟩

theorem stays_stackless {P : Prop} : Stackless P Stays where
  toComposes := stays_composes
  edit _ := stays_onMemory _
  store _ := stays_onMemory _
  allocate _ _ _ := stays_onMemory _
  deallocate _ _ := stays_onMemory _

theorem stays_symbolizes : Symbolizes Stays := fun _ _ => stays_onMemory _

theorem stays_assumes : Assumes Stays := fun _ => stays_onMemory _

variable {α : Type} {m m' m1 : Machine} {f : Frame} {rest : List Frame}

theorem Stays.of_ok {act : Run Machine α} {a : α} (hact : Keeps Stays act) (h : act m = .ok a m') :
    m.Stays m' := by
  have hstays := hact m
  rwa [final_of_ok h] at hstays

theorem stays_assign (place : Place) (rvalue : Rvalue) : Keeps Stays (assign place rvalue) :=
  fun m => along_false.1 (stays_stackless.assign place (fun t _ => t.fits_of_not id) m)

theorem stays_callOther (c : Call) (args : List Arg) (dest : Option PlaceRef) :
    Keeps Stays (callOther c args dest) :=
  (stays_stackless (P := False)).callOther (fun t _ => t.fits_of_not id)
    (fun a _ => a.ty.fits_of_not id) (fun d _ => d.ty.fits_of_not id) (fun _ => stays_symbolizes)
    fun _ _ _ => stays_assumes

theorem stays_allocateLocals (types : List Ty) : Keeps Stays (allocateLocals types) :=
  (stays_stackless (P := False)).allocateLocals fun t _ => t.fits_of_not id

theorem stays_passArgs (args : List (Arg × Pointer × Ty)) : Keeps Stays (passArgs args) :=
  (stays_stackless (P := False)).passArgs fun a _ => a.2.2.fits_of_not id

/-! ## Moves -/

/-- What a step makes of the frames. -/
inductive Moves (p : Program) (f : Frame) (rest : List Frame) : List Frame → Prop where
  /-- The frame goes on behind a statement. -/
  | next {b : Block} (hblock : blockOf f = .ok b) (hstmt : f.stmt < b.statements.length) :
    Moves p f rest ({ f with stmt := f.stmt + 1 } :: rest)
  | jump {b : Block} {target : Int} (hblock : blockOf f = .ok b)
    (htarget : target ∈ b.terminator.successors) :
    Moves p f rest ({ f with block := target, stmt := 0 } :: rest)
  | enter {b : Block} {c : Call} {function : Function} {locals : List Pointer}
    {returnPtr : Option Pointer} (hblock : blockOf f = .ok b) (hcall : b.terminator = .call c)
    (hfunction : p.find? c.callee = some function)
    (hlocals : locals.length = function.locals.length) :
    Moves p f rest (⟨function, locals, 0, 0, returnPtr, c.target⟩ :: f :: rest)
  | leave {g : Frame} {below : List Frame} {target : Int} (hrest : rest = g :: below)
    (htarget : f.returnTarget = some target) :
    Moves p f rest ({ g with block := target, stmt := 0 } :: below)

theorem Moves.ne_nil {p : Program} {stack : List Frame} (h : Moves p f rest stack) : stack ≠ [] := by
  cases h <;> exact cons_ne_nil _ _

theorem final_goto (hstack : m.stack = f :: rest) (target : Int) :
    (goto target).final m = { m with stack := { f with block := target, stmt := 0 } :: rest } := by
  rw [goto, final_changeFrame, hstack]

theorem taken_of_goto {b : Branch} {target : Int} (hnext : b.next = .goto target)
    (hstack : m.stack = f :: rest) :
    m.taken b = { m with
      memory := { m.memory with store := m.memory.store.push b.condition }
      stack := { f with block := target, stmt := 0 } :: rest } := by
  unfold taken
  rw [hnext]
  exact final_goto (m := { m with
    memory := { m.memory with store := m.memory.store.push b.condition } }) hstack target

theorem stack_pushFrame {function : Function} {args : List Arg} {returnPtr : Option Pointer}
    {returnTarget : Option Int} (h : pushFrame function args returnPtr returnTarget m = .ok () m') :
    ∃ locals, locals.length = function.locals.length ∧
      m'.stack = ⟨function, locals, 0, 0, returnPtr, returnTarget⟩ :: m.stack := by
  obtain ⟨locals, m1, hlocals, hpass⟩ := pushFrame_eq_ok h
  refine ⟨locals, length_of_mapM hlocals, ?_⟩
  rw [(Stays.of_ok (stays_passArgs _) hpass).stack, (Stays.of_ok (stays_allocateLocals _) hlocals).stack]

/-! ## Decisions -/

section Decisions

variable {t : Terminator} {d : Decision}

/-- A decision that goes on goes to a block that its terminator names. -/
theorem goto_of_decision (hd : d.BelongsTo t) {v : Scalar} (h : d.run v m = .ok .advance m') :
    ∃ target ∈ t.successors, m' = (goto target).final m := by
  cases t with
  | switch discr values targets otherwise =>
    obtain ⟨kind, rfl⟩ := hd
    cases v with
    | cells list => cases (Decision.run_cells h).2.1
    | ptr | undef => cases h
    | bits p =>
      rw [Decision.run_switch_bits] at h
      obtain ⟨_, m1, hgoto, ⟨⟩⟩ := bind_eq_ok.1 h
      refine ⟨_, ?_, (final_of_ok hgoto).symm⟩
      cases hfound : (values.zip targets).find? _ with
      | none => exact mem_append_right _ (mem_singleton_self _)
      | some found =>
        exact mem_append_left _ (of_mem_zip (mem_of_find?_eq_some hfound)).2
  | assert cond expected target message =>
    cases hd
    change assertOn v expected target message m = _ at h
    unfold assertOn at h
    split at h
    · cases (Decision.run_cells (d := .assert expected target message) h).2.1
    · obtain ⟨b, m1, hb, hchosen⟩ := bind_eq_ok.1 h
      obtain ⟨-, rfl⟩ := of_eq_ok.1 hb
      split at hchosen
      · cases hchosen
      · obtain ⟨_, m2, hgoto, ⟨⟩⟩ := bind_eq_ok.1 hchosen
        exact ⟨target, mem_singleton_self _, (final_of_ok hgoto).symm⟩
  | _ => exact hd.elim

/-- A branch goes to a block that the terminator names, or it panics. -/
theorem next_of_branch (hd : d.BelongsTo t) {list : List Cell} {b : Branch}
    (hb : b ∈ d.branches list) :
    (∃ target ∈ t.successors, b.next = .goto target) ∨
      ∃ message ∈ t.message?, b.next = .fail (.panic message) := by
  cases t with
  | switch discr values targets otherwise =>
    obtain ⟨kind, rfl⟩ := hd
    rcases mem_append.1 hb with hb | hb
    · obtain ⟨x, hx, rfl⟩ := mem_map.1 hb
      exact .inl ⟨x.2, mem_append_left _ (of_mem_zip hx).2, rfl⟩
    · rw [mem_singleton.1 hb]
      exact .inl ⟨otherwise, mem_append_right _ (mem_singleton_self _), rfl⟩
  | assert cond expected target message =>
    cases hd
    simp only [Decision.branches, mem_cons, not_mem_nil, or_false] at hb
    rcases hb with rfl | rfl
    · exact .inl ⟨target, mem_singleton_self _, rfl⟩
    · exact .inr ⟨message, rfl, rfl⟩
  | _ => exact hd.elim

/-- The operand of a decision is found without moving a frame. -/
theorem decision_of_terminate {r : StepResult} (hd : d.BelongsTo t) (h : terminate t m = .ok r m') :
    ∃ (d : Decision) (v : Scalar) (m1 : Machine),
      d.BelongsTo t ∧ m.Stays m1 ∧ d.run v m1 = .ok r m' := by
  have hS := stays_stackless (P := False)
  cases t with
  | switch discr values targets otherwise =>
    obtain ⟨arg, m1, harg, h⟩ := bind_eq_ok.1 h
    obtain ⟨v, m2, hv, h⟩ := bind_eq_ok.1 h
    obtain ⟨kind, -, hrun⟩ := liftBind_eq_ok.1 h
    exact ⟨.switch kind values targets otherwise, v, m2, ⟨kind, rfl⟩,
      stays_composes.trans (.of_ok (hS.evalOperand discr) harg) (.of_ok (hS.readArg arg) hv), hrun⟩
  | assert cond expected target message =>
    obtain ⟨arg, m1, harg, h⟩ := bind_eq_ok.1 h
    obtain ⟨v, m2, hv, h⟩ := bind_eq_ok.1 h
    exact ⟨.assert expected target message, v, m2, rfl,
      stays_composes.trans (.of_ok (hS.evalOperand cond) harg) (.of_ok (hS.readArg arg) hv), h⟩
  | _ => exact hd.elim

end Decisions

/-! ## Calls and returns -/

/-- A call that goes on enters a function or comes back at its target. -/
theorem moves_call {b : Block} {c : Call} (hblock : blockOf f = .ok b)
    (hcall : b.terminator = .call c) (hstack : m.stack = f :: rest)
    (h : call c m = .ok .advance m') : Moves m.program f rest m'.stack := by
  have hS := stays_stackless (P := False)
  unfold call at h
  obtain ⟨found, m1, hfound, h⟩ := bind_eq_ok.1 h
  have hstays := Stays.of_ok (hS.evalCall c) hfound
  rw [← hstays.program]
  rw [← hstays.stack] at hstack
  rw [callWith_eq] at h
  split at h
  · cases h
  · cases hfunction : m1.program.find? c.callee with
    | some function =>
      rw [hfunction] at h
      obtain ⟨_, m2, hpush, ⟨⟩⟩ := bind_eq_ok.1 h
      obtain ⟨locals, hlocals, htop⟩ := stack_pushFrame hpush
      rw [htop, hstack]
      exact .enter hblock hcall hfunction hlocals
    | none =>
      rw [hfunction] at h
      obtain ⟨_, m2, hother, h⟩ := bind_eq_ok.1 h
      rw [← (Stays.of_ok (stays_callOther c found.1 found.2) hother).stack] at hstack
      unfold afterCall at h
      cases htarget : c.target with
      | none =>
        rw [htarget] at h
        cases h
      | some target =>
        rw [htarget] at h
        obtain ⟨_, m3, hgoto, ⟨⟩⟩ := bind_eq_ok.1 h
        rw [← final_of_ok hgoto, final_goto hstack]
        exact .jump hblock (by simp [hcall, Terminator.successors, htarget])

/-- A return that goes on does so in the frame below. -/
theorem moves_ret (hstack : m.stack = f :: rest) (h : ret m = .ok .advance m') :
    Moves m.program f rest m'.stack := by
  have hS := stays_stackless (P := False)
  rw [ret, bind_of_ok (frame_of_stack hstack)] at h
  obtain ⟨_, m1, hover, h⟩ := bind_eq_ok.1 h
  obtain ⟨_, m2, hfree, h⟩ := bind_eq_ok.1 h
  have hbelow : m2.stack.drop 1 = rest := by
    rw [(Stays.of_ok (hS.freeLocals f.locals) hfree).stack,
      (Stays.of_ok (hS.handOver f) hover).stack, hstack]
    rfl
  rw [resume_eq, hbelow] at h
  cases rest with
  | nil => cases h
  | cons g below =>
    cases htarget : f.returnTarget with
    | none =>
      rw [htarget] at h
      cases h
    | some target =>
      rw [htarget] at h
      cases h
      rw [final_goto rfl]
      exact .leave rfl htarget

/-! ## Paths -/

theorem moves_terminate {b : Block} (hblock : blockOf f = .ok b) (hstack : m.stack = f :: rest)
    (h : terminate b.terminator m = .ok .advance m') : Moves m.program f rest m'.stack := by
  have hdecision {d : Decision} (hd : d.BelongsTo b.terminator) :
      Moves m.program f rest m'.stack := by
    obtain ⟨d, v, m1, hd, hstays, hrun⟩ := decision_of_terminate hd h
    obtain ⟨target, htarget, rfl⟩ := goto_of_decision hd hrun
    rw [final_goto (hstays.stack.trans hstack)]
    exact .jump hblock htarget
  cases hterm : b.terminator with
  | switch discr values targets otherwise =>
    exact hdecision (d := .switch .bool values targets otherwise) (hterm ▸ ⟨.bool, rfl⟩)
  | assert cond expected target message =>
    exact hdecision (d := .assert expected target message) (hterm ▸ rfl)
  | call c =>
    rw [hterm] at h
    exact moves_call hblock hterm hstack h
  | ret =>
    rw [hterm] at h
    exact moves_ret hstack h
  | goto target =>
    rw [hterm] at h
    obtain ⟨_, m1, hgoto, ⟨⟩⟩ := bind_eq_ok.1 h
    rw [← final_of_ok hgoto, final_goto hstack]
    exact .jump hblock (by simp [hterm, Terminator.successors])
  | abort | unreachable =>
    rw [hterm] at h
    cases h

theorem moves_of_advance (h : step m = .ok .advance m') :
    ∃ f rest, m.stack = f :: rest ∧ Moves m.program f rest m'.stack := by
  obtain ⟨-, ⟨⟩, -⟩ | ⟨f, rest, hstack, h⟩ := step_eq_ok h
  refine ⟨f, rest, hstack, ?_⟩
  obtain ⟨b, m1, hlift, -⟩ := bind_eq_ok.1 h
  have hblock : blockOf f = .ok b := (of_eq_ok.1 hlift).1
  cases hstmt : b.statements[f.stmt]? with
  | some s =>
    rw [stepFrame_of_statement hblock hstmt] at h
    have hnext : m'.stack = { f with stmt := f.stmt + 1 } :: rest := by
      cases s with
      | assign place rvalue =>
        obtain ⟨_, m2, hassign, h⟩ := bind_eq_ok.1 h
        obtain ⟨_, m3, hmove, ⟨⟩⟩ := bind_eq_ok.1 h
        rw [← final_of_ok hmove, final_changeFrame,
          (Stays.of_ok (stays_assign place rvalue) hassign).stack]
        exact hstack ▸ rfl
      | nop =>
        obtain ⟨_, m3, hmove, ⟨⟩⟩ := bind_eq_ok.1 h
        rw [← final_of_ok hmove, final_changeFrame]
        exact hstack ▸ rfl
    rw [hnext]
    exact .next hblock (List.getElem?_eq_some_iff.1 hstmt).1
  | none =>
    rw [stepFrame_of_terminator hblock hstmt] at h
    exact moves_terminate (m := m.counted) hblock hstack h

theorem stays_of_fork {bs : List Branch} (h : step m = .ok (.fork bs) m') :
    ∃ f rest b, m.stack = f :: rest ∧ blockOf f = .ok b ∧ m.Stays m' ∧
      ∃ (d : Decision) (list : List Cell), d.BelongsTo b.terminator ∧ m'.ForksAt bs d list := by
  obtain ⟨-, ⟨⟩, -⟩ | ⟨f, b, hf, hblock, -, hterm⟩ := terminate_of_step h (by simp)
  obtain ⟨rest, hstack⟩ : ∃ rest, m.stack = f :: rest := head?_eq_some_iff.1 hf
  obtain ⟨d, list, hd, -⟩ := fork_of_terminate hterm
  obtain ⟨d, v, m1, hd, hstays, hrun⟩ := decision_of_terminate hd hterm
  cases v with
  | cells list =>
    obtain ⟨rfl, -, -⟩ := Decision.run_cells hrun
    exact ⟨f, rest, b, hstack, hblock, ⟨hstays.program, hstays.stack⟩, d, list, hd, forksAt_of_run hrun⟩
  | bits | ptr | undef => exact absurd rfl (straight_decision d rfl _ _ _ hrun bs)

/-- Along a path the frames move, or a branch of a fork is about to panic with the message of an
assertion. -/
theorem Leads.moves (h : m.Leads m') :
    ∃ f rest, m.stack = f :: rest ∧ (Moves m.program f rest m'.stack ∧ m'.pending = none ∨
      m'.stack = m.stack ∧ ∃ b message, blockOf f = .ok b ∧ message ∈ b.terminator.message? ∧
        m'.pending = some (.panic message)) := by
  cases h with
  | advance h =>
    obtain ⟨f, rest, hstack, hmoves⟩ := moves_of_advance h
    exact ⟨f, rest, hstack, .inl ⟨hmoves, pending_of_ok h⟩⟩
  | @take bs b m1 _ h hb hm =>
    obtain ⟨f, rest, block, hstack, hblock, hstays, d, list, hd, hforks⟩ := stays_of_fork h
    obtain ⟨rfl, -⟩ := taken_of_branch hforks hb hm
    refine ⟨f, rest, hstack, ?_⟩
    rw [hforks.branches] at hb
    rcases next_of_branch hd (mem_of_mem_filter hb) with
      ⟨target, htarget, hnext⟩ | ⟨message, hmessage, hnext⟩
    · rw [taken_of_goto hnext (hstays.stack.trans hstack)]
      have hpending : m1.pending = none := pending_of_ok h
      exact .inl ⟨.jump hblock htarget, hpending⟩
    · unfold taken
      rw [hnext]
      exact .inr ⟨hstays.stack, block, message, hblock, hmessage, rfl⟩

end Machine
end SymExec

import SymExec.Proofs.Region
import SymExec.Proofs.Replay
import SymExec.Proofs.Usage

/-!
# Locals and leaks

The live stack allocations are the locals of the frames (`Machine.Disciplined`). So a return can
always free the locals of its frame, and of what was allocated on a path that succeeds only the heap is
left. The bytes of the heap are those that calls of `alloc` have asked for, without those that calls of
`dealloc` have freed (`Machine.Balances`). The bytes that a success reports as leaked are these
(`Target.locals_live_and_leaked_eq`).
-/
namespace SymExec

open Run List Memory Exploration

variable {n : Nat}

namespace Machine

variable {m m' m1 : Machine}
variable {α : Type} {memory : Memory} {p : Pointer} {args : List Arg}
  {a : α} {asked freed : Nat} {typeArgs : List Ty} {b : Builtin} {r : StepResult}
  {locals outer : List Pointer} {act : Run Machine α} {dest : Option PlaceRef}

/-! ## Machines whose stack allocations are locals -/

/-- The locals of the frames, those of the outermost frame first. -/
def owned (m : Machine) : List Pointer := (m.stack.map Frame.locals).reverse.flatten

/-- The stack allocations are the locals of the frames, and the buffer is the only abstract one. -/
structure Disciplined (m : Machine) : Prop where
  regular : m.memory.Regular
  locals : (m.memory.numbers .stack).map (Pointer.known · 0) = m.owned
  buffer : m.memory.numbers .abstract = m.memory.root.toList

/-- The machine is as it should be, and its heap has changed by what was asked for and freed. -/
structure Balances (m m' : Machine) (asked freed : Nat) : Prop where
  disciplined : m'.Disciplined
  heap : m'.memory.bytes .heap + freed = m.memory.bytes .heap + asked

theorem Balances.trans {asked' freed' : Nat} (h : m.Balances m1 asked freed)
    (h' : m1.Balances m' asked' freed') : m.Balances m' (asked + asked') (freed + freed') := by
  refine ⟨h'.disciplined, ?_⟩
  have := h.heap
  have := h'.heap
  omega

theorem Disciplined.locals_perm (hm : m.Disciplined) :
    (m.stack.flatMap Frame.locals).Perm ((m.memory.numbers .stack).map (Pointer.known · 0)) := by
  rw [hm.locals, owned, flatMap_def]
  exact (reverse_perm _).symm.flatten

theorem Disciplined.nodup_locals (hm : m.Disciplined) : (m.stack.flatMap Frame.locals).Nodup := by
  refine hm.locals_perm.nodup_iff.2 ((hm.regular.ordered.nodup_numbers .stack).map ?_)
  exact fun id id' h => by simpa using h

theorem Disciplined.mem_locals (hm : m.Disciplined) :
    p ∈ m.stack.flatMap Frame.locals ↔
      ∃ x ∈ m.memory.allocs, x.2.region = .stack ∧ p = .known x.1 0 := by
  rw [hm.locals_perm.mem_iff, mem_map]
  constructor
  · rintro ⟨id, hid, rfl⟩
    obtain ⟨x, hx, hregion, rfl⟩ := mem_numbers.1 hid
    exact ⟨x, hx, hregion, rfl⟩
  · rintro ⟨x, hx, hregion, rfl⟩
    exact ⟨x.1, mem_numbers.2 ⟨x, hx, hregion, rfl⟩, rfl⟩

/-- The frames keep their locals, and nothing but static allocations may have come. -/
structure Idles (m m' : Machine) : Prop where
  locals : m'.stack.map Frame.locals = m.stack.map Frame.locals
  memory : m.memory.Retains m'.memory

theorem idles_onMemory {act : Run Memory α} (h : Keeps Memory.Retains act) :
    Keeps Idles (onMemory act) := fun m => by
  rw [final_onMemory]
  exact ⟨rfl, h m.memory⟩

theorem idles_of_rewrites {act : Run Memory α} (h : Keeps Memory.Rewrites act) :
    Keeps Idles (onMemory act) :=
  idles_onMemory (h.mono fun _ _ => retains_of_rewrites)

theorem idles_quiet : Quiet True Idles where
  refl m := ⟨rfl, retains_composes.refl m.memory⟩
  trans h h' := ⟨h'.locals.trans h.locals, retains_composes.trans h.memory h'.memory⟩
  edit h := idles_onMemory (retains_edit h)
  store _ := idles_of_rewrites (rewrites_onStore _)
  move m f rest block stmt h := ⟨by simp [h], retains_composes.refl m.memory⟩

theorem idles_symbolizes : Symbolizes Idles := fun p size =>
  idles_of_rewrites (rewrites_makeSymbolic p size)

theorem idles_assumes : Assumes Idles := fun _ => idles_of_rewrites (rewrites_onStore _)

theorem Disciplined.idles (hm : m.Disciplined) (h : m.Idles m') : m.Balances m' 0 0 := by
  obtain ⟨hregular, hroot, hlive⟩ := h.memory hm.regular
  refine ⟨⟨hregular, ?_, ?_⟩, ?_⟩
  · rw [numbers, hlive .stack (by simp), owned, h.locals]
    exact hm.locals
  · rw [numbers, hlive .abstract (by simp), hroot]
    exact hm.buffer
  · rw [bytes, hlive .heap (by simp)]
    rfl

theorem Disciplined.idles_ok (hm : m.Disciplined) (hact : Keeps Idles act) (h : act m = .ok a m') :
    m.Balances m' 0 0 := by
  have hidles := hact m
  rw [final_of_ok h] at hidles
  exact hm.idles hidles

/-! ## Calls of functions -/

structure Lays (m m' : Machine) (locals : List Pointer) : Prop where
  stack : m'.stack = m.stack
  root : m'.memory.root = m.memory.root
  locals : (m'.memory.numbers .stack).map (Pointer.known · 0)
    = (m.memory.numbers .stack).map (Pointer.known · 0) ++ locals
  others : ∀ r, r ≠ .stack → m'.memory.live r = m.memory.live r

theorem lays_allocateLocals {types : List Ty} (hm : m.memory.Regular)
    (h : allocateLocals types m = .ok locals m') : m'.memory.Regular ∧ m.Lays m' locals := by
  induction types generalizing m locals with
  | nil =>
    rw [allocateLocals, mapM_nil] at h
    cases h
    exact ⟨hm, rfl, rfl, by simp, fun _ _ => rfl⟩
  | cons ty types ih =>
    rw [allocateLocals, mapM_cons] at h
    obtain ⟨p, m1, hp, h⟩ := bind_eq_ok.1 h
    obtain ⟨ps, m2, hps, ⟨⟩⟩ := bind_eq_ok.1 h
    obtain ⟨size, -, hrest⟩ := liftBind_eq_ok.1 hp
    obtain ⟨align, _, halign, hlast⟩ := bind_eq_ok.1 hrest
    obtain ⟨n, -, ⟨⟩⟩ := liftBind_eq_ok.1 halign
    obtain ⟨memory, hallocate, rfl⟩ := onMemory_eq_ok hlast
    obtain ⟨rfl, hadded⟩ := added_of_allocate hm hallocate
    obtain ⟨hregular, hlays⟩ := ih hadded.regular hps
    refine ⟨hregular, hlays.stack, hlays.root.trans hadded.root, ?_, fun r hr =>
      (hlays.others r hr).trans (hadded.others r hr)⟩
    rw [hlays.locals, numbers, hadded.live]
    simp [numbers]

theorem Disciplined.pushFrame {function : Function} {returnPtr : Option Pointer}
    {returnTarget : Option Int} (hm : m.Disciplined) (hfits : ∀ t ∈ function.locals, t.Fits True)
    (h : pushFrame function args returnPtr returnTarget m = .ok () m') : m.Balances m' 0 0 := by
  obtain ⟨locals, m1, hlocals, hpass⟩ := pushFrame_eq_ok h
  obtain ⟨hregular, hlays⟩ := lays_allocateLocals hm.regular hlocals
  let f : Frame := ⟨function, locals, 0, 0, returnPtr, returnTarget⟩
  have hpushed : m.Balances { m1 with stack := f :: m1.stack } 0 0 := by
    refine ⟨⟨hregular, ?_, ?_⟩, ?_⟩
    · have howned : Machine.owned { m1 with stack := f :: m1.stack } = m.owned ++ locals := by
        simp [owned, hlays.stack, f]
      rw [howned, ← hm.locals]
      exact hlays.locals
    · simp only [numbers, hlays.others .abstract (by simp), hlays.root]
      exact hm.buffer
    · simp only [bytes, hlays.others .heap (by simp)]
  refine hpushed.trans (hpushed.disciplined.idles_ok (idles_quiet.passArgs fun a ha => ?_) hpass)
  have hzip := mem_of_mem_drop (of_mem_zip ha).2
  exact hfits _ (of_mem_zip hzip).2

/-! ## Returns -/

theorem pointers_free (hm : memory.Ordered) {id : Nat} {a : Allocation}
    (h : (memory.numbers .stack).map (Pointer.known · 0) = outer ++ .known id 0 :: locals) :
    ((memory.free id a).numbers .stack).map (Pointer.known · 0) = outer ++ locals := by
  obtain ⟨before, rest, hnumbers, rfl, hrest⟩ := map_eq_append_iff.1 h
  obtain ⟨k, after, rfl, hk, rfl⟩ := map_eq_cons_iff.1 hrest
  obtain rfl : k = id := by simpa using hk
  have hnodup := hm.nodup_numbers .stack
  have hbefore : k ∉ before := by
    rw [hnumbers] at hnodup
    exact fun hk => disjoint_of_nodup_append hnodup hk (by simp)
  rw [numbers_free, ← hnodup.erase_eq_filter, hnumbers, erase_append_right _ hbefore,
    erase_cons_head, map_append]

theorem freeLocals_of_owned (hm : m.memory.Regular)
    (h : (m.memory.numbers .stack).map (Pointer.known · 0) = outer ++ locals) :
    ∃ m', freeLocals locals m = .ok () m' ∧ m'.memory.Regular ∧
      (m'.memory.numbers .stack).map (Pointer.known · 0) = outer ∧ m'.Lays m locals := by
  induction locals generalizing m with
  | nil =>
    rw [append_nil] at h
    exact ⟨m, rfl, hm, h, rfl, rfl, by simp, fun _ _ => rfl⟩
  | cons p locals ih =>
    have hp : p ∈ (m.memory.numbers .stack).map (Pointer.known · 0) := by simp [h]
    obtain ⟨id, hid, rfl⟩ := mem_map.1 hp
    obtain ⟨a, hfind, hregion, hdeallocate⟩ := deallocate_of_mem hm.ordered (by simp) hid
    obtain ⟨m', hrest, hregular, houter, hlays⟩ := ih (m := { m with memory := m.memory.free id a })
      (regular_free hm id a) (pointers_free hm.ordered h)
    refine ⟨m', ?_, hregular, houter, hlays.stack, hlays.root, ?_, fun r hr => ?_⟩
    · have hfree : onMemory (deallocate (.known id 0) (some .stack)) m
          = .ok () { m with memory := m.memory.free id a } := by
        rw [onMemory, hdeallocate]
      rw [freeLocals_cons, bind_of_ok hfree, hrest]
    · rw [h, houter]
    · refine Eq.trans ?_ (hlays.others r hr)
      exact (live_free_of_ne hm.ordered hfind (hregion ▸ hr)).symm

section Returns

variable {f : Frame} {rest : List Frame} (hm : m.Disciplined) (hstack : m.stack = f :: rest)
include hm hstack

/-- When the result is handed over, the locals can be freed, and the frame can be left. -/
theorem Disciplined.freeLocals (hover : handOver f m = .ok () m1) :
    ∃ m2, freeLocals f.locals m1 = .ok () m2 ∧
      m.Balances { m2 with stack := m2.stack.drop 1 } 0 0 := by
  have hidles := idles_quiet.handOver f m
  rw [final_of_ok hover] at hidles
  have hover := hm.idles hidles
  have hlocals : m1.stack.map Frame.locals = f.locals :: rest.map Frame.locals := by
    rw [hidles.locals, hstack, map_cons]
  have howned : m1.owned = (rest.map Frame.locals).reverse.flatten ++ f.locals := by
    simp [owned, hlocals]
  obtain ⟨m2, hfree, hregular, houter, hlays⟩ :=
    freeLocals_of_owned hover.disciplined.regular (hover.disciplined.locals.trans howned)
  refine ⟨m2, hfree, ⟨hregular, ?_, ?_⟩, ?_⟩
  · rw [houter, owned, map_drop, ← hlays.stack, hlocals]
    rfl
  · have hbuffer := hover.disciplined.buffer
    rwa [numbers, hlays.others .abstract (by simp), hlays.root] at hbuffer
  · have hheap := hover.heap
    rwa [bytes, hlays.others .heap (by simp)] at hheap

theorem Disciplined.ret (h : ret m = .ok r m') : m.Balances m' 0 0 := by
  rw [Machine.ret, bind_of_ok (frame_of_stack hstack)] at h
  obtain ⟨_, m1, hover, h⟩ := bind_eq_ok.1 h
  obtain ⟨_, m2, hfree, h⟩ := bind_eq_ok.1 h
  obtain ⟨m3, hfreed, hbalances⟩ := hm.freeLocals hstack hover
  obtain rfl : m2 = m3 := by
    rw [hfree] at hfreed
    cases hfreed
    rfl
  rw [resume_eq] at h
  split at h
  · cases h
    exact hbalances
  · split at h
    · cases h
      exact hbalances.trans (hbalances.disciplined.idles (idles_quiet.goto _ _))
    · cases h

/-- If a return raises, the result could not be handed over, or there is nowhere to go. -/
theorem Disciplined.ret_raises {e : Failure} (h : Machine.ret m = .error e m') :
    handOver f m = .error e m' ∨ e = .error (.functionReturned f.function.name) := by
  rw [Machine.ret, bind_of_ok (frame_of_stack hstack)] at h
  cases hover : handOver f m with
  | error e' m1 =>
    rw [bind_of_error hover] at h
    cases h
    exact .inl rfl
  | ok _ m1 =>
    obtain ⟨m2, hfree, -⟩ := hm.freeLocals hstack hover
    rw [bind_of_ok hover, bind_of_ok hfree, resume_eq] at h
    split at h
    · cases h
    · split at h
      · cases h
      · cases h
        exact .inr rfl

end Returns

/-! ## Builtins -/

def value? {α : Type} (act : Run Machine α) (m : Machine) : Option α :=
  match act m with
  | .ok a _ => some a
  | .error _ _ => none

def sizeArg (arg : Arg) : Run Machine Nat := do (← readArg arg).toU64

def pointerArg (arg : Arg) : Run Machine Pointer := do (← readArg arg).toPtr

def askedBy (b : Builtin) (args : List Arg) (m : Machine) : Nat :=
  match b, args with
  | .alloc, [size, _] => (value? (sizeArg size) m).getD 0
  | _, _ => 0

/-- The size of the allocation that a builtin is asked to free. -/
def freedBy (b : Builtin) (args : List Arg) (m : Machine) : Nat :=
  match b, args with
  | .dealloc, [p, _] =>
    match (value? (pointerArg p) m).bind fun p => m.memory.find? p.alloc with
    | some a => a.size
    | none => 0
  | _, _ => 0

/-- Reading an argument changes nothing. -/
theorem readArg_eq_ok {arg : Arg} {v : Scalar} (h : readArg arg m = .ok v m') : m' = m := by
  have hcomposes : Composes fun m m' : Machine => m' = m := ⟨fun _ => rfl, fun h h' => h'.trans h⟩
  have hkeeps : Keeps (fun m m' => m' = m) (readArg arg) := by
    unfold readArg readScalar
    grind
  rw [← final_of_ok h]
  exact hkeeps m

theorem Disciplined.onHeap (hm : m.Disciplined) (hregular : memory.Regular)
    (hroot : memory.root = m.memory.root) (hothers : ∀ r, r ≠ .heap → memory.live r = m.memory.live r) :
    { m with memory := memory }.Disciplined := by
  refine ⟨hregular, ?_, ?_⟩
  · simp only [numbers, hothers .stack (by simp)]
    exact hm.locals
  · simp only [numbers, hothers .abstract (by simp), hroot]
    exact hm.buffer

theorem Disciplined.allocate {align : Int} (hm : m.Disciplined)
    (h : onMemory (allocate n align .heap) m = .ok p m') : m.Balances m' n 0 := by
  obtain ⟨memory, hallocate, rfl⟩ := onMemory_eq_ok h
  obtain ⟨-, hadded⟩ := added_of_allocate hm.regular hallocate
  refine ⟨hm.onHeap hadded.regular hadded.root hadded.others, ?_⟩
  simp [bytes, hadded.live]

theorem Disciplined.deallocate (hm : m.Disciplined)
    (h : onMemory (deallocate p (some .heap)) m = .ok () m') :
    ∃ a, m.memory.find? p.alloc = some a ∧ m.Balances m' 0 a.size := by
  obtain ⟨memory, hdeallocate, rfl⟩ := onMemory_eq_ok h
  obtain ⟨id, a, rfl, hfind, hregion, rfl⟩ := deallocate_eq_ok hdeallocate
  refine ⟨a, hfind, hm.onHeap (regular_free hm.regular id a) rfl fun r hr =>
    live_free_of_ne hm.regular.ordered hfind (hregion ▸ hr), ?_⟩
  have hbytes := bytes_free hm.regular.ordered hfind
  rw [hregion] at hbytes
  dsimp only
  omega

theorem value?_of_ok (h : act m = .ok a m') : value? act m = some a := by
  simp [value?, h]

theorem Disciplined.performBuiltin (hm : m.Disciplined) (hdest : ∀ d ∈ dest, d.ty.Fits True)
    (h : performBuiltin b args dest typeArgs m = .ok () m') :
    m.Balances m' (askedBy b args m) (freedBy b args m) := by
  unfold Machine.performBuiltin at h
  split at h
  · obtain ⟨message, m1, -, h⟩ := bind_eq_ok.1 h
    cases h
  · rename_i size align
    obtain ⟨v, m1, hv, h1⟩ := bind_eq_ok.1 h
    obtain rfl := readArg_eq_ok hv
    obtain ⟨w, m2, hw, h2⟩ := bind_eq_ok.1 h1
    obtain rfl := readArg_eq_ok hw
    obtain ⟨n, hn, h3⟩ := liftBind_eq_ok.1 h2
    obtain ⟨k, -, h4⟩ := liftBind_eq_ok.1 h3
    obtain ⟨p, m5, hp, h5⟩ := bind_eq_ok.1 h4
    have hsize : sizeArg size m2 = .ok n m2 := (bind_of_ok hv).trans (by rw [hn]; rfl)
    have hallocated := hm.allocate hp
    simp only [askedBy, value?_of_ok hsize, Option.getD_some]
    refine hallocated.trans (hallocated.disciplined.idles_ok ?_ h5)
    cases dest with
    | none => exact idles_quiet.pure ()
    | some d => exact idles_quiet.writeScalar d.ptr _ (hdest d rfl) true
  · rename_i p size
    obtain ⟨v, m1, hv, h1⟩ := bind_eq_ok.1 h
    obtain rfl := readArg_eq_ok hv
    obtain ⟨q, m2, hq, h2⟩ := bind_eq_ok.1 h1
    obtain ⟨-, rfl⟩ := of_eq_ok.1 hq
    obtain ⟨w, m3, hw, h3⟩ := bind_eq_ok.1 h2
    obtain rfl := readArg_eq_ok hw
    obtain ⟨n, -, h4⟩ := liftBind_eq_ok.1 h3
    obtain ⟨_, _, ⟨⟩, h5⟩ := bind_eq_ok.1 h4
    obtain ⟨a, -, h6⟩ := liftBind_eq_ok.1 h5
    dsimp only at h6
    split at h6
    · cases h6
    · have hpointer : pointerArg p m3 = .ok q m3 := (bind_of_ok hv).trans hq
      obtain ⟨b, hfind, hbalances⟩ := hm.deallocate h6
      simpa only [askedBy, freedBy, value?_of_ok hpointer, Option.bind_some, hfind] using hbalances
  · rename_i target
    have hsymbolizes := idles_symbolizes
    unfold Symbolizes at hsymbolizes
    have hquiet := idles_quiet
    refine hm.idles_ok ?_ h
    split <;> grind
  · cases h

theorem Disciplined.callBuiltin (hm : m.Disciplined) (hdest : ∀ d ∈ dest, d.ty.Fits True)
    (h : callBuiltin b args dest typeArgs m = .ok () m') :
    m.Balances m' (askedBy b args m) (freedBy b args m) := by
  unfold Machine.callBuiltin at h
  cases harity : b.arity? with
  | none =>
    simp only [harity] at h
    exact hm.performBuiltin hdest h
  | some expected =>
    simp only [harity] at h
    split at h
    · cases h
    · exact hm.performBuiltin hdest h

/-! ## Steps -/

/-- The builtin that the next step calls, its arguments and the machine that has found them. -/
def nextBuiltin? (m : Machine) : Option (Builtin × List Arg × Machine) :=
  match m.stack.head?.bind nextCall? with
  | some c =>
    match evalCall c m.counted with
    | .ok found m' =>
      match m'.program.find? c.callee with
      | some _ => none
      | none => (Builtin.ofName? c.callee).map fun b => (b, found.1, m')
    | .error _ _ => none
  | none => none

/-- The bytes that the next step asks for by a call of `alloc`. -/
def requested (m : Machine) : Nat :=
  match m.nextBuiltin? with
  | some (b, args, m') => askedBy b args m'
  | none => 0

/-- The bytes that the next step frees by a call of `dealloc`. -/
def released (m : Machine) : Nat :=
  match m.nextBuiltin? with
  | some (b, args, m') => freedBy b args m'
  | none => 0

theorem Disciplined.counted (hm : m.Disciplined) : m.counted.Disciplined :=
  ⟨hm.regular, hm.locals, hm.buffer⟩

theorem Balances.ofCounted (h : m.counted.Balances m' asked freed) :
    m.Balances m' asked freed := ⟨h.disciplined, h.heap⟩

theorem Disciplined.call {f : Frame} {rest : List Frame} {c : Call} (hm : m.Disciplined)
    (hfits : m.Fits True) (hstack : m.stack = f :: rest) (hnext : nextCall? f = some c)
    (hc : ∀ t ∈ c.types, t.Fits True) (h : call c m.counted = .ok r m') :
    m.Balances m' m.requested m.released := by
  have hfits' : m.counted.Fits True := ⟨hfits.program, hfits.functions⟩
  have hhead : m.stack.head?.bind nextCall? = some c := by simp [hstack, hnext]
  unfold Machine.call at h
  obtain ⟨⟨args, dest⟩, m1, hfound, h⟩ := bind_eq_ok.1 h
  have hevaluated := (hm.counted.idles_ok (idles_quiet.evalCall c) hfound).ofCounted
  obtain ⟨hargs, hdest⟩ := idles_quiet.evalCall_fits hc hfits' hfound
  unfold callWith at h
  split at h
  · cases h
  · obtain ⟨_, _, hget, h⟩ := bind_eq_ok.1 h
    cases hget
    cases hfunction : m1.program.find? c.callee with
    | some function =>
      simp only [hfunction] at h
      obtain ⟨_, m2, hpush, ⟨⟩⟩ := bind_eq_ok.1 h
      have hnone : m.nextBuiltin? = none := by simp [nextBuiltin?, hhead, hfound, hfunction]
      have hfits1 := (idles_quiet.along.evalCall c m.counted hfits').1
      rw [final_of_ok hfound] at hfits1
      simp only [requested, released, hnone]
      refine hevaluated.trans (hevaluated.disciplined.pushFrame (fun t ht => ?_) hpush)
      exact hfits1.program _ (mem_of_find?_eq_some hfunction) t (mem_append_left _ ht)
    | none =>
      simp only [hfunction] at h
      obtain ⟨_, m2, hother, h⟩ := bind_eq_ok.1 h
      have hcalled : m.Balances m2 m.requested m.released := by
        cases hb : Builtin.ofName? c.callee with
        | none =>
          have hnone : m.nextBuiltin? = none := by simp [nextBuiltin?, hhead, hfound, hfunction, hb]
          simp only [requested, released, hnone]
          exact hevaluated.trans (hevaluated.disciplined.idles_ok
            (idles_quiet.callNamed hb hc hargs hdest fun _ _ _ => idles_assumes) hother)
        | some b =>
          have hsome : m.nextBuiltin? = some (b, args, m1) := by
            simp [nextBuiltin?, hhead, hfound, hfunction, hb]
          rw [callOther_of_builtin hb] at hother
          have hperformed := hevaluated.trans (hevaluated.disciplined.callBuiltin hdest hother)
          simpa only [requested, released, hsome, Nat.zero_add] using hperformed
      exact hcalled.trans (hcalled.disciplined.idles_ok (idles_quiet.afterCall c) h)

/-- A step that succeeds changes the heap by what it asks for and frees. -/
theorem Disciplined.step (hm : m.Disciplined) (hfits : m.Fits True) (h : step m = .ok r m') :
    m.Balances m' m.requested m.released := by
  have hidle {m' : Machine} (hnone : m.stack.head?.bind nextCall? = none) (h : m.Balances m' 0 0) :
      m.Balances m' m.requested m.released := by
    simpa only [requested, released, nextBuiltin?, hnone] using h
  obtain ⟨hstack, -, rfl⟩ | ⟨f, rest, hstack, hframe⟩ := step_eq_ok h
  · exact hidle (by simp [hstack]) ⟨hm, rfl⟩
  · have hf : f.function.Fits True := hfits.functions f (by simp [hstack])
    rcases idles_quiet.stepFrame_cases hf with ⟨c, hc, hcall⟩ | ⟨hnone, hquiet | hret⟩
    · rw [hcall] at hframe
      exact hm.call hfits hstack hc (types_of_nextCall? hf hc) hframe
    · refine hidle (by simp [hstack, hnone]) ?_
      have hidles := (hquiet m.counted ⟨hfits.program, hfits.functions⟩).2
      rw [final_of_ok hframe] at hidles
      exact (hm.counted.idles hidles).ofCounted
    · rw [hret] at hframe
      exact hidle (by simp [hstack, hnone]) (hm.counted.ret hstack hframe).ofCounted

theorem idles_taken (m : Machine) (b : Branch) : m.Idles (m.taken b) := by
  have hstore (e : Option EvalError) : m.Idles { m with
      memory := { m.memory with store := m.memory.store.push b.condition }, pending := e } :=
    ⟨rfl, retains_of_rewrites fun hm => rewritten_store hm _⟩
  unfold taken
  cases b.next with
  | fail e => exact hstore (some e)
  | goto block => exact idles_quiet.trans (hstore m.pending) (idles_quiet.goto block _)

theorem Disciplined.leads (hm : m.Disciplined) (hfits : m.Fits True) (h : m.Leads m') :
    m.Balances m' m.requested m.released := by
  obtain ⟨r, m1, hstep, rfl | ⟨b, rfl⟩⟩ := h.cases
  · exact hm.step hfits hstep
  · have hstepped := hm.step hfits hstep
    exact hstepped.trans (hstepped.disciplined.idles (idles_taken m1 b))

/-! ## The end of a path -/

theorem bytes_of_numbers {r : Region} (h : memory.numbers r = []) : memory.bytes r = 0 := by
  rw [bytes, map_eq_nil_iff.1 h]
  rfl

/-- When no frame is left and the buffer is released, all that is left is in the heap. -/
theorem Disciplined.leaked (hm : m.Disciplined) (hstack : m.stack = [])
    (h : releaseRoot m.memory = .ok memory) : memory.leaked = m.memory.bytes .heap := by
  have hlocals : m.memory.numbers .stack = [] := by
    have hlocals := hm.locals
    rwa [owned, hstack, map_nil, reverse_nil, flatten_nil, map_eq_nil_iff]
      at hlocals
  have hbuffer := hm.buffer
  unfold releaseRoot at h
  cases hroot : m.memory.root with
  | none =>
    rw [hroot] at h hbuffer
    cases h
    rw [leaked_eq, bytes_of_numbers hlocals, bytes_of_numbers hbuffer]
    omega
  | some root =>
    rw [hroot, Option.toList_some] at hbuffer
    obtain ⟨a, hfind, hregion, -⟩ := deallocate_of_mem hm.regular.ordered
      (show Region.abstract ≠ .static by simp) (show root ∈ _ by simp [hbuffer])
    have hreleased : memory = m.memory.free root a := by
      simpa [hroot, isLive, hfind, deallocate_eq, hregion] using h.symm
    have hheap : memory.bytes .heap = m.memory.bytes .heap := by
      rw [hreleased, bytes,
        live_free_of_ne hm.regular.ordered hfind (by simp [hregion])]
      rfl
    have hstackless : memory.numbers .stack = [] := by
      rw [hreleased, numbers_free, hlocals, filter_nil]
    have hbufferless : memory.numbers .abstract = [] := by
      rw [hreleased, numbers_free, hbuffer]
      simp
    rw [leaked_eq, bytes_of_numbers hstackless, bytes_of_numbers hbufferless, hheap]
    omega

end Machine

/-! ## Runs -/

namespace Target

variable {program : Program} {name : String} {config : Config} {t : Target} {m : Machine}

theorem disciplined_start (hp : program.NonNegative) (h : t.Starts program name config) :
    t.start.Disciplined ∧ t.start.memory.bytes .heap = 0 := by
  obtain ⟨f, args, m, ⟨name, hname⟩, hpush, hm⟩ := start_eq_ok h
  have hempty : m.program = program ∧ m.Disciplined ∧ m.memory.bytes .heap = 0 := by
    rcases hm with rfl | ⟨-, rfl⟩
    · exact ⟨rfl, ⟨⟨⟨.nil, by simp [machine]⟩, by simp [machine]⟩, rfl, rfl⟩, rfl⟩
    · exact ⟨rfl, ⟨regular_buffered, rfl, rfl⟩, rfl⟩
  obtain ⟨rfl, hdisciplined, hheap⟩ := hempty
  have hpushed := hdisciplined.pushFrame (fun t ht =>
    hp.fits True _ (mem_of_find?_eq_some hname) t (mem_append_left _ ht)) hpush
  refine ⟨hpushed.disciplined, ?_⟩
  have := hpushed.heap
  omega

theorem Reaches.disciplined (hp : program.NonNegative) (ht : t.Starts program name config)
    (h : t.Reaches m) : m.Disciplined := by
  induction h with
  | refl => exact (disciplined_start hp ht).1
  | tail h hleads ih =>
    have hfits := (Reaches.sound (fresh_start ht) h).fits hp True
    exact (ih.leads hfits hleads).disciplined

/-- On the way from a machine to the end of its path, the heap changes by what the steps ask for and
free. -/
theorem balances_path {p : Program} (hp : p.NonNegative) {ms : List Machine} {last m' : Machine}
    (hchain : (m :: ms).IsChain Machine.Leads) (hlast : (m :: ms).getLast? = some last)
    (hdone : Machine.step last = .ok .done m') (hsound : m.Sound p) (hm : m.Disciplined) :
    m.Balances m' ((m :: ms).map Machine.requested).sum ((m :: ms).map Machine.released).sum := by
  induction ms generalizing m with
  | nil =>
    cases hlast
    simpa using hm.step (hsound.fits hp True) hdone
  | cons m1 ms ih =>
    obtain ⟨hleads, hrest⟩ := isChain_cons_cons.1 hchain
    have hfirst := hm.leads (hsound.fits hp True) hleads
    rw [getLast?_cons_cons] at hlast
    exact hfirst.trans (ih hrest hlast (hsound.extends hleads.extends) hfirst.disciplined)

/-- The machine is met as long as steps succeed. -/
def Passes (t : Target) (m : Machine) : Prop :=
  ∃ m0, t.Reaches m0 ∧ (m = m0 ∨ ∃ r, Machine.step m0 = .ok r m)

theorem Passes.disciplined (hp : program.NonNegative) (ht : t.Starts program name config)
    (h : t.Passes m) : m.Disciplined := by
  obtain ⟨m0, hreaches, rfl | ⟨r, hstep⟩⟩ := h
  · exact hreaches.disciplined hp ht
  · have hfits := (hreaches.sound (fresh_start ht)).fits hp True
    exact ((hreaches.disciplined hp ht).step hfits hstep).disciplined

/-- In a program without arrays of negative length, the live stack allocations are at all times the
locals of the frames, and no two locals are the same. So a return raises only if the result cannot be
handed over or if the function has nowhere to return to. What a success reports as leaked are the
bytes that `alloc` was asked for on its path, without those that `dealloc` freed. -/
theorem locals_live_and_leaked_eq (hp : program.NonNegative)
    (ht : ofMain program name config = .ok t ∨ ofSymbolic program name config = .ok t) :
    (∀ m, t.Passes m →
      (m.stack.flatMap Frame.locals).Nodup ∧
      (∀ p, p ∈ m.stack.flatMap Frame.locals ↔
        ∃ x ∈ m.memory.allocs, x.2.region = .stack ∧ p = .known x.1 0) ∧
      ∀ f rest e m', m.stack = f :: rest → Machine.ret m.counted = .error e m' →
        Machine.handOver f m.counted = .error e m' ∨
          e = .error (.functionReturned f.function.name)) ∧
    ∀ most r, r ∈ (t.explore most).reports → r.outcome = .success →
      (∃ ms, t.Path ms r) ∧ ∀ ms, t.Path ms r → ∃ leaked, r.leaked = some leaked ∧
        (leaked : Int) = (ms.map Machine.requested).sum - (ms.map Machine.released).sum := by
  have hfresh := fresh_start ht
  refine ⟨fun m hm => ?_, fun most r hr hsuccess => ⟨exists_path most hfresh.steps hr hsuccess, ?_⟩⟩
  · have hdisciplined := hm.disciplined hp ht
    refine ⟨hdisciplined.nodup_locals, fun p => hdisciplined.mem_locals, ?_⟩
    exact fun f rest e m' hstack hret => hdisciplined.counted.ret_raises hstack hret
  · rintro ms ⟨hstart, hchain, last, hlast, hreturned⟩
    obtain ⟨m', hdone, hreport⟩ := done_of_returned hreturned
    obtain ⟨-, memory, hmemory, hleaked⟩ := successReport_eq_ok hreport hsuccess
    obtain ⟨hstarted, hempty⟩ := disciplined_start hp ht
    cases ms with
    | nil => cases hstart
    | cons m ms =>
      cases hstart
      obtain ⟨hdisciplined, hheap⟩ := balances_path hp hchain hlast hdone hfresh.sound hstarted
      refine ⟨_, hleaked, ?_⟩
      rw [hdisciplined.leaked (Machine.stack_of_done hdone) hmemory]
      omega

end Target

/-! ## A function that leaks -/

namespace Spender

def usize (n : Int) : Operand := .constant (.int n) .usize

/-- Asks for 8 bytes and for 16, and frees the first. -/
def helper : Function where
  name := .str "helper"
  locals := [.unit, .rawPtr .u8 true]
  argCount := 0
  blocks := [
    ⟨[], .call ⟨.str "alloc", [usize 8, usize 8], some ⟨1, []⟩, some 1, []⟩⟩,
    ⟨[], .call ⟨.str "alloc", [usize 16, usize 8], none, some 2, []⟩⟩,
    ⟨[], .call ⟨.str "dealloc", [.copy ⟨1, []⟩, usize 8], none, some 3, []⟩⟩,
    ⟨[], .ret⟩]

def main : Function where
  name := .str "main"
  locals := [.unit]
  argCount := 0
  blocks := [⟨[], .call ⟨.str "helper", [], none, some 1, []⟩⟩, ⟨[], .ret⟩]

def program : Program := ⟨[main, helper]⟩

def config : Config := { limits := { steps := 9 } }

def start : Machine where
  program := program
  limits := config.limits
  memory := {
    limit := config.limits.memory
    allocs := [(1, ⟨[], [], 1, .stack, [], []⟩)]
    next := 2 }
  stack := [{ function := main, locals := [.known 1 0] }]

def target : Target := { start := start }

def after : Nat → Machine
  | 0 => start
  | n + 1 => Machine.step.final (after n)

def trace : List Machine := [after 0, after 1, after 2, after 3, after 4, after 5]

def report : Report := ⟨[], .success, some 16⟩

theorem ofMain_program : Target.ofMain program "main" config = .ok target := by rfl

theorem step_after (h : n < 5) : Machine.step (after n) = .ok .advance (after (n + 1)) := by
  rcases n with _ | _ | _ | _ | _ | n
  · rfl
  · rfl
  · rfl
  · rfl
  · rfl
  · omega

theorem expand_after (h : n < 5) : (after n).expand none = .further false [after (n + 1)] := by
  simp only [Machine.expand, step_after h]

theorem expand_last : (after 5).expand none = .returned report := by rfl

theorem path_trace : target.Path trace report where
  start := rfl
  leads := by
    have hleads {n : Nat} (h : n < 5) : (after n).Leads (after (n + 1)) := .advance (step_after h)
    simp only [trace, isChain_cons_cons, isChain_singleton, and_true]
    exact ⟨hleads (by decide), hleads (by decide), hleads (by decide), hleads (by decide),
      hleads (by decide)⟩
  returns := ⟨after 5, rfl, expand_last⟩

theorem explore_target : (target.explore none).reports = [report] := by
  have hexplore : target.explore none = loop none none 10 [after 0] [] {} := rfl
  rw [hexplore]
  simp [loop, expand_after, expand_last, absorb, halted,
    countFork, countStep, deliver, wanted]

end Spender

theorem Target.locals_live_and_leaked_eq_sample :
    Spender.program.NonNegative ∧
    ofMain Spender.program "main" Spender.config = .ok Spender.target ∧
    (Spender.after 2).stack.flatMap Frame.locals = [.known 2 0, .known 3 0, .known 1 0] ∧
    ((Spender.after 2).stack.flatMap Frame.locals).Nodup ∧
    Spender.report ∈ (Spender.target.explore none).reports ∧
    Spender.target.Path Spender.trace Spender.report ∧
    Spender.trace.map Machine.requested = [0, 8, 16, 0, 0, 0] ∧
    Spender.trace.map Machine.released = [0, 0, 0, 8, 0, 0] ∧
    ∃ leaked, Spender.report.leaked = some leaked ∧ (leaked : Int) =
      (Spender.trace.map Machine.requested).sum - (Spender.trace.map Machine.released).sum := by
  have hnonneg : Spender.program.NonNegative := by decide
  have hreport : Spender.report ∈ (Spender.target.explore none).reports := by
    simp [Spender.explore_target]
  have hreaches : Spender.target.Reaches (Spender.after 2) :=
    .tail (.single (.advance (Spender.step_after (n := 0) (by decide))))
      (.advance (Spender.step_after (n := 1) (by decide)))
  obtain ⟨hlocals, hleaked⟩ := locals_live_and_leaked_eq hnonneg (.inl Spender.ofMain_program)
  exact ⟨hnonneg, Spender.ofMain_program, by rfl, (hlocals _ ⟨_, hreaches, .inl rfl⟩).1, hreport,
    Spender.path_trace, by decide +kernel, by decide +kernel,
    (hleaked none _ hreport rfl).2 _ Spender.path_trace⟩

end SymExec

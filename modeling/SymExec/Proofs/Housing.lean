import SymExec.Proofs.Layout
import SymExec.Proofs.Leak

/-!
# The allocations of locals

No operation changes the size or the alignment of an allocation (`Memory.Sizes`), and a call allocates
each local with the size and alignment of its type. So at all times every local of every frame is the
start of a live allocation that fits its type (`Target.Passes.houses`).
-/
namespace SymExec

open Run List Memory

namespace Memory

variable {m m' m1 : Memory}
variable {p : Pointer}

/-! ## Sizes -/

/-- The allocations stand in order, are valid, and have no more cells than can be made at once. -/
structure Compact (m : Memory) : Prop extends Regular m where
  small : ∀ x ∈ m.allocs, x.2.size < maxCells

theorem compact_of_rewritten (hm : m.Compact) (h : m.Rewritten m') : m'.Compact := by
  refine ⟨h.regular, fun x' hx' => ?_⟩
  obtain ⟨x, hx, -, hsize, -⟩ := h.exists_mem hx'
  rw [← hsize]
  exact hm.small x hx

theorem lt_of_allocate {size align : Int} {region : Region}
    (h : allocate size align region m = .ok p m') : size < maxCells := by
  rw [allocate_eq, failReporting_apply] at h
  split_ifs at h with _ _ hmax
  omega

/-- An allocation that was there before has the size and the alignment that it had. -/
structure Sized (m m' : Memory) : Prop where
  compact : m'.Compact
  next : m.next ≤ m'.next
  kept : ∀ x' ∈ m'.allocs, x'.1 < m.next →
    ∃ x ∈ m.allocs, x.1 = x'.1 ∧ x.2.size = x'.2.size ∧ x.2.align = x'.2.align

/-- Sizes stay if allocations are valid and small. -/
def Sizes (m m' : Memory) : Prop := m.Compact → m.Sized m'

theorem sizes_composes : Composes Sizes where
  refl _ h := ⟨h, Nat.le_refl _, fun x hx _ => ⟨x, hx, rfl, rfl, rfl⟩⟩
  trans {m m1 m2} h h' hm := by
    have h1 := h hm
    have h2 := h' h1.compact
    refine ⟨h2.compact, h1.next.trans h2.next, fun x hx hlt => ?_⟩
    obtain ⟨y, hy, hnumber, hsize, halign⟩ := h2.kept x hx (hlt.trans_le h1.next)
    obtain ⟨z, hz, hnumber', hsize', halign'⟩ := h1.kept y hy (hnumber ▸ hlt)
    exact ⟨z, hz, hnumber'.trans hnumber, hsize'.trans hsize, halign'.trans halign⟩

theorem sizes_of_rewrites (h : m.Rewrites m') : m.Sizes m' := fun hm =>
  have hrewritten := h hm.toRegular
  ⟨compact_of_rewritten hm hrewritten, hrewritten.next.ge, fun _ hx' _ => hrewritten.exists_mem hx'⟩

theorem sizes_allocate (size align : Int) (region : Region) :
    Keeps Sizes (allocate size align region) := by
  intro m hm
  have hsame := sizes_composes.refl m hm
  unfold final
  rw [allocate_eq, failReporting_apply]
  split_ifs with _ _ _ hmax
  · exact hsame
  · exact hsame
  · exact hsame
  · exact ⟨⟨regular_skip hm.toRegular, hm.small⟩, Nat.le_succ _, hsame.kept⟩
  · refine ⟨⟨regular_add hm.toRegular (valid_fresh size align region) _, fun x hx => ?_⟩,
      Nat.le_succ _, fun x hx hlt => ?_⟩
    · rcases mem_append.1 hx with hx | hx
      · exact hm.small x hx
      · rw [mem_singleton.1 hx]
        simp only [Allocation.size, length_replicate]
        have : 0 < maxCells := by decide
        omega
    · rcases mem_append.1 hx with hx | hx
      · exact ⟨x, hx, rfl, rfl, rfl⟩
      · rw [mem_singleton.1 hx] at hlt
        exact absurd hlt (Nat.lt_irrefl _)

theorem sizes_deallocate (p : Pointer) (region : Option Region) :
    Keeps Sizes (deallocate p region) := by
  intro m hm
  have hsame := sizes_composes.refl m hm
  have hfree (id : Nat) (a : Allocation) : m.Sized (m.free id a) :=
    ⟨⟨regular_free hm.toRegular id a, fun x hx => hm.small x (mem_of_mem_filter hx)⟩,
      Nat.le_refl _, fun x hx => hsame.kept x (mem_of_mem_filter hx)⟩
  cases p with
  | symbolic id o => exact hsame
  | known id offset =>
    cases offset with
    | succ n => exact hsame
    | zero =>
      unfold final
      rw [deallocate_eq]
      grind

theorem sizes_allocateStatic (data : List (BitVec 8)) : Keeps Sizes (allocateStatic data) := by
  intro m hm
  refine sizes_composes.bind_final (sizes_allocate data.length 1 .static m) (fun p m1 h hm1 => ?_) hm
  refine sizes_composes.bind_final (fun hm1 => ?_) (fun _ _ _ => sizes_composes.refl _) hm1
  exact sizes_of_rewrites (fun _ => rewritten_filled hm.toRegular h m1.store (by simp)) hm1

/-! ## Locals -/

/-- A pointer is the start of an allocation that is as large and as aligned as a type asks for, if it
is live. -/
def Suits (m : Memory) (p : Pointer) (ty : Ty) : Prop :=
  ty.isNonNegative = true ∧ ∃ id n align, p = .known id 0 ∧ id < m.next ∧
    ty.layout = .ok ⟨some n, align⟩ ∧ n < maxCells ∧
    ∀ a, m.find? id = some a → (a.size : Int) = n ∧ a.align = align

theorem Suits.mono {ty : Ty} (h : m.Suits p ty) (hm : m.Compact) (hsized : m.Sized m') :
    m'.Suits p ty := by
  obtain ⟨hty, id, n, align, rfl, hlt, hlayout, hmax, hfits⟩ := h
  refine ⟨hty, id, n, align, rfl, hlt.trans_le hsized.next, hlayout, hmax, fun a hfind => ?_⟩
  obtain ⟨⟨id, b⟩, hb, rfl, hsize, halign⟩ := hsized.kept _ (mem_of_lookup hfind) hlt
  obtain ⟨hbsize, hbalign⟩ := hfits b (hm.ordered.find?_eq_some hb)
  exact ⟨by rw [← hbsize, ← hsize], by rw [← hbalign, ← halign]⟩

/-- A new allocation of the size and alignment of a type. -/
theorem suits_allocate {ty : Ty} {n : Int} {align : Nat} (hlayout : ty.layout = .ok ⟨some n, align⟩)
    (hty : ty.isNonNegative) (hm : m.Regular) (h : allocate n align .stack m = .ok p m') :
    m'.Suits p ty := by
  have hn : 0 ≤ n := ((Ty.layout_lawful hty hlayout).multiple n rfl).1
  have hmax := lt_of_allocate h
  obtain ⟨rfl, rfl⟩ := allocate_eq_ok h
  refine ⟨hty, m.next, n, align, rfl, Nat.lt_succ_self _, hlayout, hmax, fun a hfind => ?_⟩
  have hfresh := lookup_add hm.ordered.below (fresh n align .stack)
  cases hfresh.symm.trans hfind
  exact ⟨size_fresh hn, rfl⟩

end Memory

namespace Machine

variable {m m' m1 : Machine}
variable {α : Type} {r : StepResult}

/-- The frames have their functions and locals, and allocations their sizes and alignments. -/
structure Tends (m m' : Machine) : Prop where
  frames : m'.stack.map (fun f => (f.function, f.locals)) = m.stack.map fun f => (f.function, f.locals)
  sizes : m.memory.Sizes m'.memory

theorem tends_onMemory {act : Run Memory α} (h : Keeps Memory.Sizes act) :
    Keeps Tends (onMemory act) := fun m => by
  rw [final_onMemory]
  exact ⟨rfl, h m.memory⟩

theorem tends_store (act : Run Store α) : Keeps Tends (onStore act) :=
  tends_onMemory ((rewrites_onStore act).mono fun _ _ => sizes_of_rewrites)

theorem tends_quiet : Quiet True Tends where
  refl m := ⟨rfl, sizes_composes.refl m.memory⟩
  trans h h' := ⟨h'.frames.trans h.frames, sizes_composes.trans h.sizes h'.sizes⟩
  edit h := tends_onMemory
    (h.keeps sizes_allocateStatic fun _ _ => sizes_of_rewrites)
  store _ := tends_store _
  move m f rest block stmt h := ⟨by simp [h], sizes_composes.refl m.memory⟩

theorem tends_stackless : Stackless True Tends where
  toSilent := tends_quiet.toSilent
  allocate align region _ := tends_onMemory (sizes_allocate _ align region)
  deallocate p region := tends_onMemory (sizes_deallocate p region)

theorem tends_symbolizes : Symbolizes Tends := fun p size =>
  tends_onMemory ((rewrites_makeSymbolic p size).mono fun _ _ => sizes_of_rewrites)

theorem tends_assumes : Assumes Tends := fun _ => tends_store _

theorem Tends.of_ok {act : Run Machine α} {a : α} (hact : Keeps Tends act) (h : act m = .ok a m') :
    m.Tends m' := by
  have htends := hact m
  rwa [final_of_ok h] at htends

/-- Every local of every frame is the start of an allocation that its type asks for. -/
structure Housed (m : Machine) : Prop where
  compact : m.memory.Compact
  locals : ∀ f ∈ m.stack, List.Forall₂ m.memory.Suits f.locals f.function.locals

theorem Housed.tends (hm : m.Housed) (h : m.Tends m') : m'.Housed := by
  refine ⟨(h.sizes hm.compact).compact, fun f hf => ?_⟩
  have hmem : (f.function, f.locals) ∈ m.stack.map fun f => (f.function, f.locals) :=
    h.frames ▸ mem_map_of_mem hf
  obtain ⟨g, hg, hsame⟩ := mem_map.1 hmem
  obtain ⟨hfunction, hlocals⟩ := Prod.mk.inj hsame
  rw [← hfunction, ← hlocals]
  exact (hm.locals g hg).imp fun p ty hsuits => hsuits.mono hm.compact (h.sizes hm.compact)

theorem Housed.drop (hm : m.Housed) : { m with stack := m.stack.drop 1 }.Housed :=
  ⟨hm.compact, fun f hf => hm.locals f (mem_of_mem_drop hf)⟩

theorem Housed.counted (hm : m.Housed) : m.counted.Housed := ⟨hm.compact, hm.locals⟩

/-! ## Calls and returns -/

theorem layout_of_size {ty : Ty} {n : Int} {align : Nat} (hsize : ty.size = .ok n)
    (halign : ty.align = .ok align) : ty.layout = .ok ⟨some n, align⟩ := by
  obtain ⟨l, hl, hn⟩ := bind_iff.1 hsize
  obtain ⟨l', hl', ⟨⟩⟩ := bind_iff.1 halign
  cases hl.symm.trans hl'
  obtain ⟨size, align⟩ := l
  cases size with
  | none => cases hn
  | some size =>
    cases hn
    exact hl

theorem suits_allocateLocals {types : List Ty} {locals : List Pointer} (hm : m.memory.Compact)
    (hfits : ∀ t ∈ types, t.Fits True) (h : allocateLocals types m = .ok locals m') :
    List.Forall₂ m'.memory.Suits locals types := by
  induction types generalizing m locals with
  | nil =>
    rw [allocateLocals, mapM_nil] at h
    cases h
    exact .nil
  | cons ty types ih =>
    have hrest : ∀ t ∈ types, t.Fits True := fun t ht => hfits t (by simp [ht])
    rw [allocateLocals, mapM_cons] at h
    obtain ⟨p, m1, hp, h⟩ := bind_eq_ok.1 h
    obtain ⟨ps, m2, hps, ⟨⟩⟩ := bind_eq_ok.1 h
    obtain ⟨n, hsize, hfirst⟩ := liftBind_eq_ok.1 hp
    obtain ⟨_, _, hk, hlast⟩ := bind_eq_ok.1 hfirst
    obtain ⟨align, halign, ⟨⟩⟩ := liftBind_eq_ok.1 hk
    obtain ⟨memory, hallocate, rfl⟩ := onMemory_eq_ok hlast
    have hlayout := layout_of_size hsize halign
    have hsuits := suits_allocate hlayout (hfits ty (by simp) trivial) hm.toRegular
      hallocate
    have hcompact := (sizes_allocate n align .stack _ hm).compact
    rw [final_of_ok hallocate] at hcompact
    have htends := Tends.of_ok (tends_stackless.allocateLocals hrest) hps
    exact .cons (hsuits.mono hcompact (htends.sizes hcompact)) (ih hcompact hrest hps)

theorem Housed.pushFrame {function : Function} {args : List Arg} {returnPtr : Option Pointer}
    {returnTarget : Option Int} (hm : m.Housed) (hfits : ∀ t ∈ function.locals, t.Fits True)
    (h : pushFrame function args returnPtr returnTarget m = .ok () m') : m'.Housed := by
  obtain ⟨locals, m1, hlocals, hpass⟩ := pushFrame_eq_ok h
  have hallocated := hm.tends (.of_ok (tends_stackless.allocateLocals hfits) hlocals)
  have hpushed : Housed
      { m1 with stack := ⟨function, locals, 0, 0, returnPtr, returnTarget⟩ :: m1.stack } := by
    refine ⟨hallocated.compact, fun f hf => ?_⟩
    have hnew := suits_allocateLocals hm.compact hfits hlocals
    rcases mem_cons.1 hf with rfl | hf
    · exact hnew
    · exact hallocated.locals f hf
  refine hpushed.tends (.of_ok (tends_quiet.passArgs fun a ha => hfits _ ?_) hpass)
  exact (of_mem_zip (mem_of_mem_drop (of_mem_zip ha).2)).2

theorem Housed.ret (hm : m.Housed) (h : ret m = .ok r m') : m'.Housed := by
  unfold Machine.ret at h
  obtain ⟨f, m1, hframe, h⟩ := bind_eq_ok.1 h
  obtain ⟨_, m2, hover, h⟩ := bind_eq_ok.1 h
  obtain ⟨_, m3, hfree, h⟩ := bind_eq_ok.1 h
  have hframe := hm.tends (.of_ok tends_quiet.frame hframe)
  have hover := hframe.tends (.of_ok (tends_quiet.handOver f) hover)
  have hfree := hover.tends (.of_ok (tends_stackless.freeLocals f.locals) hfree)
  rw [resume_eq] at h
  split at h
  · cases h
    exact hfree.drop
  · split at h
    · cases h
      exact hfree.drop.tends (tends_quiet.goto _ _)
    · cases h

theorem Housed.call {c : Call} (hm : m.Housed) (hfits : m.Fits True) (hc : ∀ t ∈ c.types, t.Fits True)
    (h : call c m = .ok r m') : m'.Housed := by
  unfold Machine.call at h
  obtain ⟨⟨args, dest⟩, m1, hfound, h⟩ := bind_eq_ok.1 h
  have hevaluated := hm.tends (.of_ok (tends_quiet.evalCall c) hfound)
  obtain ⟨hargs, hdest⟩ := tends_quiet.evalCall_fits hc hfits hfound
  rw [callWith_eq] at h
  split at h
  · cases h
  · cases hfunction : m1.program.find? c.callee with
    | some function =>
      rw [hfunction] at h
      obtain ⟨_, m2, hpush, ⟨⟩⟩ := bind_eq_ok.1 h
      have hfits1 := (tends_quiet.along.evalCall c m hfits).1
      rw [final_of_ok hfound] at hfits1
      refine hevaluated.pushFrame (fun t ht => ?_) hpush
      exact hfits1.program _ (mem_of_find?_eq_some hfunction) t (mem_append_left _ ht)
    | none =>
      rw [hfunction] at h
      obtain ⟨_, m2, hother, h⟩ := bind_eq_ok.1 h
      have hcalled := hevaluated.tends (.of_ok (tends_stackless.callOther hc hargs hdest
        (fun _ => tends_symbolizes) fun _ _ _ => tends_assumes) hother)
      exact hcalled.tends (.of_ok (tends_quiet.afterCall c) h)

/-! ## Steps -/

theorem Housed.step (hm : m.Housed) (hfits : m.Fits True) (h : step m = .ok r m') : m'.Housed := by
  have hfits' : m.counted.Fits True := ⟨hfits.program, hfits.functions⟩
  obtain ⟨-, -, rfl⟩ | ⟨f, rest, hstack, hframe⟩ := step_eq_ok h
  · exact hm
  · have hf : f.function.Fits True := hfits.functions f (by simp [hstack])
    rcases tends_quiet.stepFrame_cases hf with ⟨c, hc, hcall⟩ | ⟨-, hquiet | hret⟩
    · rw [hcall] at hframe
      exact hm.counted.call hfits' (types_of_nextCall? hf hc) hframe
    · have htends := (hquiet m.counted hfits').2
      rw [final_of_ok hframe] at htends
      exact hm.counted.tends htends
    · rw [hret] at hframe
      exact hm.counted.ret hframe

theorem tends_taken (m : Machine) (b : Branch) : m.Tends (m.taken b) := by
  have hstore (e : Option EvalError) : m.Tends { m with
      memory := { m.memory with store := m.memory.store.push b.condition }, pending := e } :=
    ⟨rfl, sizes_of_rewrites fun hm => rewritten_store hm _⟩
  unfold taken
  cases b.next with
  | fail e => exact hstore (some e)
  | goto block => exact tends_quiet.trans (hstore m.pending) (tends_quiet.goto block _)

theorem Housed.leads (hm : m.Housed) (hfits : m.Fits True) (h : m.Leads m') : m'.Housed := by
  obtain ⟨r, m1, hstep, rfl | ⟨b, rfl⟩⟩ := h.cases
  · exact hm.step hfits hstep
  · exact (hm.step hfits hstep).tends (tends_taken m1 b)

end Machine

/-! ## Runs -/

/-- A pointer is the start of a live allocation that is as large and as aligned as a type asks for. -/
def Memory.Houses (m : Memory) (p : Pointer) (ty : Ty) : Prop :=
  ty.isNonNegative = true ∧ ∃ id a n, p = .known id 0 ∧ m.find? id = some a ∧
    ty.layout = .ok ⟨some n, a.align⟩ ∧ (a.size : Int) = n ∧ n < maxCells

namespace Target

variable {program : Program} {name : String} {config : Config} {t : Target} {m : Machine}

theorem inputLength_lt (h : ofSymbolic program name config = .ok t) :
    config.inputLength < maxCells := by
  obtain ⟨-, -, m, -, -, -, hallocate, -, -⟩ := ofSymbolic_eq_ok h
  obtain ⟨memory, hact, -⟩ := Machine.onMemory_eq_ok hallocate
  obtain ⟨p, m1, hp, -⟩ := bind_eq_ok.1 hact
  exact lt_of_allocate hp

theorem housed_start (hp : program.NonNegative) (h : t.Starts program name config) :
    t.start.Housed := by
  obtain ⟨f, args, m, ⟨name, hname⟩, hpush, hm⟩ := start_eq_ok h
  have hempty : m.program = program ∧ m.Housed := by
    rcases hm with rfl | ⟨hsymbolic, rfl⟩
    · refine ⟨rfl, ⟨⟨⟨.nil, ?_⟩, ?_⟩, ?_⟩, ?_⟩ <;> simp [machine]
    · refine ⟨rfl, ⟨regular_buffered, fun x hx => ?_⟩, by simp [buffered, machine]⟩
      have hlength := inputLength_lt hsymbolic
      rw [mem_singleton.1 hx]
      simp only [Allocation.size, Store.cellsFrom, length_map, length_range]
      have : 0 < maxCells := by decide
      omega
  obtain ⟨rfl, hhoused⟩ := hempty
  exact hhoused.pushFrame (fun t ht =>
    hp.fits True _ (mem_of_find?_eq_some hname) t (mem_append_left _ ht)) hpush

theorem Reaches.housed (hp : program.NonNegative) (ht : t.Starts program name config)
    (h : t.Reaches m) : m.Housed := by
  induction h with
  | refl => exact housed_start hp ht
  | tail h hleads ih => exact ih.leads ((Reaches.sound (fresh_start ht) h).fits hp True) hleads

theorem Passes.housed (hp : program.NonNegative) (ht : t.Starts program name config)
    (h : t.Passes m) : m.Housed := by
  obtain ⟨m0, hreaches, rfl | ⟨r, hstep⟩⟩ := h
  · exact hreaches.housed hp ht
  · exact (hreaches.housed hp ht).step ((hreaches.sound (fresh_start ht)).fits hp True) hstep

/-- At all times every local is the start of a live allocation of the size and alignment of its type. -/
theorem Passes.houses (hp : program.NonNegative) (ht : t.Starts program name config)
    (h : t.Passes m) {f : Frame} (hf : f ∈ m.stack) :
    List.Forall₂ m.memory.Houses f.locals f.function.locals := by
  have hdisciplined := h.disciplined hp ht
  have hlive : ∀ p ∈ f.locals, ∃ id a, p = .known id 0 ∧ m.memory.find? id = some a := by
    intro p hp
    obtain ⟨x, hx, -, rfl⟩ := hdisciplined.mem_locals.1 (mem_flatMap.2 ⟨f, hf, hp⟩)
    exact ⟨x.1, x.2, rfl, hdisciplined.regular.ordered.find?_eq_some hx⟩
  refine ((forall₂_and_left _ _).2 ⟨hlive, (h.housed hp ht).locals f hf⟩).imp ?_
  rintro p ty ⟨⟨id, a, rfl, hfind⟩, hty, id', n, align, ⟨⟩, -, hlayout, hmax, hfits⟩
  obtain ⟨hsize, rfl⟩ := hfits a hfind
  exact ⟨hty, id, a, n, rfl, hfind, hlayout, hsize, hmax⟩

end Target
end SymExec

import SymExec.Proofs.Memory

/-!
# The memory that a run uses

No step takes more memory than the limit allows, however it ends: the usage never exceeds the limit.
If no array of the program has a negative length, the usage is also what the live allocations hold
(`Target.usage_within_limit`). An array of negative length lowers the usage and holds nothing, so
other allocations may then hold more than the limit.
-/
namespace SymExec

open Run Memory

/-! ## Steps -/

namespace Memory

def Within (limit : Int) (m : Memory) : Prop := m.limit = limit ∧ m.usage ≤ limit

theorem within_allocate {limit : Int} (size align : Int) (region : Region) {m : Memory}
    (h : m.Within limit) : ((allocate size align region).final m).Within limit := by
  obtain ⟨rfl, husage⟩ := h
  unfold final
  rw [allocate_eq, failReporting_apply]
  split_ifs with halign hfree hmax
  · exact ⟨rfl, husage⟩
  · exact ⟨rfl, husage⟩
  · exact ⟨rfl, husage⟩
  · exact ⟨rfl, husage⟩
  · refine ⟨rfl, ?_⟩
    dsimp only
    omega

theorem within_deallocate {limit : Int} (p : Pointer) (region : Option Region) {m : Memory}
    (h : m.Within limit) : ((deallocate p region).final m).Within limit := by
  have hfree (id : Nat) (a : Allocation) : (m.free id a).Within limit := by
    refine ⟨h.1, ?_⟩
    have := h.2
    simp only [free]
    omega
  cases p with
  | known id offset =>
    cases offset with
    | zero =>
      unfold final
      rw [deallocate_eq]
      grind
    | succ n => exact h
  | symbolic id o => exact h

theorem within_invariant (limit : Int) : Invariant (Within limit) where
  respected :=
    { refl _ := id
      trans h h' := h' ∘ h
      allocate size align region _ := within_allocate size align region
      deallocate p region _ := within_deallocate p region
      update _ _ _ _ h := h }
  store _ _ h := h

end Memory

namespace Machine

theorem maintains_closed : Closed True fun m m' => m.memory.Maintains m'.memory where
  refl m := maintains_composes.refl m.memory
  trans h h' := maintains_composes.trans h h'
  edit h m := by
    rw [final_onMemory]
    refine h.keeps maintains_allocateStatic (fun m m' hm hvalid => ?_) m.memory
    exact (hm hvalid.regular).evolves hvalid
  store h m := by
    rw [onStore, final_onMemory]
    exact maintains_of_rewrites (rewrites_onStore _) m.memory
  move m f rest block stmt h := maintains_composes.refl m.memory
  allocate align region h m := by
    rw [final_onMemory]
    exact maintains_allocate (h trivial) align region m.memory
  deallocate p region m := by
    rw [final_onMemory]
    exact maintains_deallocate p region m.memory
  push m f h := maintains_composes.refl m.memory
  pop m := maintains_composes.refl m.memory

theorem maintains_step {m : Machine} (hm : m.Fits True) :
    m.memory.Maintains (step.final m).memory := by
  obtain ⟨e, n, hfinal⟩ | ⟨f, rest, -, -, hstack, hfinal⟩ := final_step m
  · rw [hfinal]
    exact maintains_composes.refl m.memory
  · have hsymbolizes : Symbolizes fun m m' => m.memory.Maintains m'.memory := fun p size m => by
      rw [final_onMemory]
      exact maintains_of_rewrites (rewrites_makeSymbolic p size) m.memory
    have hassumes : Assumes fun m m' => m.memory.Maintains m'.memory := fun list m => by
      rw [onStore, final_onMemory]
      exact maintains_of_rewrites (rewrites_onStore _) m.memory
    have hf : f.function.Fits True := hm.functions f (by simp [hstack])
    rw [hfinal]
    exact (maintains_closed.stepFrame hf (fun _ _ _ => hsymbolizes) (fun _ _ _ _ _ => hassumes)
      m.counted ⟨hm.program, hm.functions⟩).2

theorem Leads.maintains {m m' : Machine} (h : m.Leads m') (hm : m.Fits True) :
    m.memory.Maintains m'.memory := by
  have hstep := maintains_step hm
  obtain ⟨r, m1, hok, rfl | ⟨b, rfl⟩⟩ := h.cases
  · rwa [final_of_ok hok] at hstep
  · rw [final_of_ok hok] at hstep
    refine maintains_composes.trans hstep fun hvalid => ?_
    rw [memory_taken]
    exact (rewritten_store hvalid.regular _).evolves hvalid

end Machine

/-! ## Runs -/

namespace Target

/-- The machine is met in a run: it is reached, or a step leaves it, however the step ends. -/
def Visits (t : Target) (m : Machine) : Prop :=
  ∃ m0, t.Reaches m0 ∧ (m = m0 ∨ m = Machine.step.final m0)

variable {program : Program} {name : String} {config : Config} {t : Target}

theorem inputLength_le_limit (h : ofSymbolic program name config = .ok t) :
    config.inputLength ≤ config.limits.memory := by
  obtain ⟨-, -, m, -, -, -, hallocate, -, -⟩ := ofSymbolic_eq_ok h
  unfold Machine.onMemory at hallocate
  split at hallocate
  · rename_i hact
    obtain ⟨p, m1, hp, -⟩ := bind_eq_ok.1 hact
    have hroom := room_of_allocate hp
    simpa [machine] using hroom
  · cases hallocate

theorem within_start (hlimit : 0 ≤ config.limits.memory) (h : t.Starts program name config) :
    t.start.memory.Within config.limits.memory := by
  refine invariant_start (within_invariant _) ?_ (fun h => ?_) h
  · exact ⟨rfl, hlimit⟩
  · exact ⟨rfl, inputLength_le_limit h⟩

/-- The machine that holds the buffer alone. -/
theorem regular_buffered :
    (buffered program config (Store.cellsFrom 0 config.inputLength.toNat)).memory.Regular := by
  refine ⟨⟨List.pairwise_singleton _ _, by simp [buffered]⟩, fun x hx => ?_⟩
  rw [List.mem_singleton.1 hx]
  constructor <;> simp [Store.cellsFrom]

theorem valid_buffered (hlength : 0 ≤ config.inputLength)
    (hroom : config.inputLength ≤ config.limits.memory) :
    (buffered program config (Store.cellsFrom 0 config.inputLength.toNat)).memory.Valid := by
  refine ⟨regular_buffered.ordered, ?_, hroom, regular_buffered.allocs⟩
  simp only [buffered, held, List.map_cons, List.map_nil, List.sum_cons, List.sum_nil,
    Allocation.size, Store.cellsFrom, List.length_map, List.length_range]
  omega

theorem valid_start (hp : program.NonNegative) (hlimit : 0 ≤ config.limits.memory)
    (hlength : ∀ n ∈ t.inputLength, 0 ≤ n) (h : t.Starts program name config) :
    t.start.memory.Valid := by
  obtain ⟨f, args, m, hf, hpush, hm⟩ := start_eq_ok h
  obtain ⟨hfits, hvalid⟩ : m.Fits True ∧ m.memory.Valid := by
    rcases hm with rfl | ⟨hsymbolic, rfl⟩
    · exact ⟨⟨hp.fits True, by simp [machine]⟩, ⟨.nil, by simp [machine]⟩, rfl, hlimit,
        by simp [machine]⟩
    · obtain ⟨-, -, -, -, -, hinput, -⟩ := ofSymbolic_eq_ok hsymbolic
      exact ⟨⟨hp.fits True, by simp [buffered, machine]⟩,
        valid_buffered (hlength _ (by simp [hinput])) (inputLength_le_limit hsymbolic)⟩
  have hpushed := Machine.maintains_closed.pushFrame args none none hf hfits
  rw [final_of_ok hpush] at hpushed
  exact (hpushed.2 hvalid).valid

theorem Visits.valid (hp : program.NonNegative) (hstart : t.start.memory.Valid)
    (hfresh : Fresh program t.start) {m : Machine} (h : t.Visits m) : m.memory.Valid := by
  have hreaches {m : Machine} (h : t.Reaches m) : m.memory.Valid := by
    induction h with
    | refl => exact hstart
    | tail h hleads ih => exact (hleads.maintains ((Reaches.sound hfresh h).fits hp True) ih).valid
  obtain ⟨m0, h, rfl | rfl⟩ := h
  · exact hreaches h
  · exact (Machine.maintains_step ((Reaches.sound hfresh h).fits hp True) (hreaches h)).valid

/-- The usage never exceeds the limit, and it is what the live allocations hold if no array of the
program and no input has a negative length. -/
theorem usage_within_limit (hlimit : 0 ≤ config.limits.memory)
    (ht : ofMain program name config = .ok t ∨ ofSymbolic program name config = .ok t)
    {m : Machine} (h : t.Visits m) :
    m.memory.usage ≤ config.limits.memory ∧
      (program.NonNegative → (∀ n ∈ t.inputLength, 0 ≤ n) →
        m.memory.usage = (m.memory.allocs.map fun x => (x.2.size : Int)).sum) := by
  constructor
  · have hI := within_invariant config.limits.memory
    obtain ⟨m0, hreaches, rfl | rfl⟩ := h
    · exact (hreaches.invariant hI (within_start hlimit ht)).2
    · exact (Machine.invariant_step hI (hreaches.invariant hI (within_start hlimit ht))).2
  · intro hp hlength
    exact (h.valid hp (valid_start hp hlimit hlength ht) (fresh_start ht)).usage

end Target

/-! ## Two arrays -/

namespace Sample

/-- A program whose only function has two arrays as locals and returns. -/
def rawArrays (first second : String) : Json := .obj [("functions", .arr [.obj [
  ("name", .str "main"), ("arg_count", .int 0),
  ("locals", .arr [.str "()", .str first, .str second]),
  ("blocks", .arr [.obj [("terminator", .str "return")]])]])]

def arrays (first second : Int) : Program := ⟨[{
  name := .str "main"
  locals := [.unit, .array .u8 first, .array .u8 second]
  argCount := 0
  blocks := [⟨[], .ret⟩] }]⟩

def roomFor (bytes : Int) : Config := { limits := { memory := bytes } }

/-- The program starts with such a usage and with allocations of such sizes. -/
theorem exists_start (first second bytes usage : Int) (sizes : List Nat)
    (h : ((Target.ofMain (arrays first second) "main" (roomFor bytes)).toOption.map fun t =>
      (t.start.memory.usage, t.start.memory.allocs.map fun x => x.2.size)) = some (usage, sizes)) :
    ∃ t, Target.ofMain (arrays first second) "main" (roomFor bytes) = .ok t ∧
      t.start.memory.usage = usage ∧
      (t.start.memory.allocs.map fun x => (x.2.size : Int)).sum = (sizes.map Nat.cast).sum := by
  cases ht : Target.ofMain (arrays first second) "main" (roomFor bytes) with
  | error e => simp [ht, Except.toOption] at h
  | ok t =>
    simp only [ht, Except.toOption, Option.map_some, Option.some.injEq, Prod.mk.injEq] at h
    obtain ⟨husage, rfl⟩ := h
    exact ⟨t, rfl, husage, by rw [List.map_map]; rfl⟩

end Sample

theorem Target.usage_within_limit_sample :
    (∃ t, ofMain (Sample.arrays 4 110) "main" (Sample.roomFor 114) = .ok t ∧
      (Sample.arrays 4 110).NonNegative ∧ t.start.memory.usage ≤ 114 ∧
      t.start.memory.usage = (t.start.memory.allocs.map fun x => (x.2.size : Int)).sum) ∧
    Program.load (Sample.rawArrays "[u8; -100]" "[u8; 110]") true = .ok (Sample.arrays (-100) 110) ∧
    ∃ t, ofMain (Sample.arrays (-100) 110) "main" (Sample.roomFor 50) = .ok t ∧
      t.start.memory.usage ≤ 50 ∧ (t.start.memory.allocs.map fun x => (x.2.size : Int)).sum = 110 := by
  have hnonneg : (Sample.arrays 4 110).NonNegative := by decide
  obtain ⟨t, ht, -, -⟩ := Sample.exists_start 4 110 114 114 [0, 4, 110] (by decide +kernel)
  obtain ⟨t', ht', -, hsum⟩ := Sample.exists_start (-100) 110 50 10 [0, 0, 110] (by decide +kernel)
  obtain ⟨hwithin, hheld⟩ := usage_within_limit (by decide) (.inl ht) ⟨t.start, .refl, .inl rfl⟩
  obtain ⟨hwithin', -⟩ := usage_within_limit (by decide) (.inl ht') ⟨t'.start, .refl, .inl rfl⟩
  refine ⟨⟨t, ht, hnonneg, hwithin, hheld hnonneg ?_⟩, by rfl, t', ht', hwithin', hsum⟩
  simp [inputLength_ofMain ht]

end SymExec

import SymExec.Proofs.Survive.Step
import SymExec.Proofs.Tree
import SymExec.Proofs.Usage

/-!
# Errors of a path

A step that dies, with anything but an error of the program, ends exploration and with it all other
paths. Loading leaves instructions in a program that die: constants that are no numbers, fields and
elements that are chosen by no number, and a few casts and intrinsics. The others are plain. The plain
instructions of a program of modest types raise errors of their path only, whatever the values that they
meet, and then the other paths are still reported (`Target.errors_stay_local`).
-/
namespace SymExec

open Run List Machine

/-- Limits that memory has room for and that messages can show. -/
structure Config.Modest (c : Config) : Prop where
  memory : 0 ≤ c.limits.memory
  room : c.limits.memory < Memory.maxCells
  inputLength : 0 ≤ c.inputLength
  steps : Text.isPrintableInt c.limits.steps = true
  frames : Text.isPrintableInt c.limits.frames = true

namespace Machine

variable {p : Program} {m m' : Machine}

/-! ## Runs of healthy machines -/

theorem Healthy.taken (hm : m.Healthy p False) (b : Branch) : (m.taken b).Healthy p False := by
  have hrequire : Lasts (contract p False True) 0
      (onStore (Store.require b.condition)) := survives_onStore (Store.survives_require b.condition)
  have hpushed := (hrequire.ok hm (Nat.zero_le _) rfl).1
  unfold Machine.taken
  cases b.next with
  | fail e =>
    exact ⟨hpushed.program, hpushed.steps, hpushed.frames, hpushed.memory, hpushed.stack, hpushed.busy⟩
  | goto block =>
    exact ((survives_goto block (D := True)).ok hpushed (Nat.zero_le _) rfl).1

theorem Healthy.leads (hp : p.Modest) (hm : m.Healthy p False) (hresolved : m.Resolved p)
    (h : m.Leads m') : m'.Healthy p False := by
  -- what a step leaves is healthy whether or not the step could have died
  have hendures : Endures p True Machine.step m := hm.step hp hresolved (.inr trivial) (.inr trivial)
  obtain ⟨r, m1, hok, rfl | ⟨b, rfl⟩⟩ := h.cases
  · exact hendures.ok hok
  · exact (hendures.ok hok).taken b

/-- What the next step reports is the message of an assertion. -/
theorem Healthy.fair (hp : p.Modest) (hm : m.Healthy p False) (h : m.Leads m') :
    ∀ e ∈ m'.pending, e.Fair := by
  obtain ⟨f, rest, hstack, ⟨-, hpending⟩ | ⟨-, b, message, hblock, hmessage, hpending⟩⟩ := h.moves
  · simp [hpending]
  · have hfunction := (hm.stack f (by simp [hstack])).function
    intro e he
    rw [hpending] at he
    cases he
    exact .of_printable (hp.message hfunction (mem_of_blockOf hblock) hmessage) rfl

/-- Every instruction that a machine of a plain program comes to is plain. -/
theorem Healthy.isPlain (hm : m.Healthy p False) (hp : p.isPlain) : m.isPlain := by
  unfold Machine.isPlain
  cases hstack : m.stack with
  | nil => rfl
  | cons f rest =>
    have hfunction := (hm.stack f (by simp [hstack])).function
    have hblocks := all_eq_true.1 (all_eq_true.1 hp f.function hfunction)
    rw [hm.program]
    change f.isPlain p = true
    unfold Frame.isPlain
    cases hblock : blockOf f with
    | error e => rfl
    | ok b =>
      obtain ⟨hstatements, hterminator⟩ := Bool.and_eq_true_iff.1 (hblocks b (mem_of_blockOf hblock))
      dsimp only
      cases hstmt : b.statements[f.stmt]? with
      | none => exact hterminator
      | some s => exact all_eq_true.1 hstatements s (mem_of_getElem? hstmt)

theorem Leads.child (h : m.Leads m') : ∃ i, m.Child i m' := by
  cases h with
  | advance h => exact ⟨0, .advance h⟩
  | take h hb hm =>
    obtain ⟨i, hi⟩ := mem_iff_getElem?.1 hb
    exact ⟨i, .outcome h hi hm⟩

/-- A step that does not die causes no fault. -/
theorem Turn.fault {length most : Option Int} {e : Expansion} {x y : Exploration} {ms : List Machine}
    (h : m.Turn length e) (habsorb : x.absorb most e = (y, ms)) : y.fault = x.fault := by
  cases h <;> cases habsorb <;> rfl

end Machine

namespace Target

variable {program : Program} {name : String} {config : Config} {t : Target}

theorem Node.reaches {p : List Nat} {m : Machine} (h : t.Node p m) : t.Reaches m := by
  induction h with
  | start => exact .refl
  | child _ hchild ih => exact ih.tail hchild.leads

theorem Reaches.node {m : Machine} (h : t.Reaches m) : ∃ p, t.Node p m := by
  induction h with
  | refl => exact ⟨[], .start⟩
  | tail _ hleads ih =>
    obtain ⟨p, hnode⟩ := ih
    obtain ⟨i, hchild⟩ := hleads.child
    exact ⟨p ++ [i], hnode.child hchild⟩

/-! ## The start -/

theorem healthy_machine (hconfig : config.Modest) :
    (machine program config).Healthy program False where
  program := rfl
  steps := hconfig.steps
  frames := hconfig.frames
  memory := ⟨⟨⟨.nil, by simp [machine]⟩, rfl, hconfig.memory, by simp [machine]⟩, hconfig.room,
    by simp [Memory.Scoped, machine]⟩
  stack := by simp [machine]
  busy := False.elim

theorem healthy_buffered (hconfig : config.Modest)
    (hroom : config.inputLength ≤ config.limits.memory) :
    (buffered program config (Store.cellsFrom 0 config.inputLength.toNat)).Healthy program False where
  program := rfl
  steps := hconfig.steps
  frames := hconfig.frames
  memory := by
    refine ⟨valid_buffered hconfig.inputLength hroom, hconfig.room, fun x hx => ?_⟩
    rw [mem_singleton.1 hx]
    refine ⟨?_, by simp⟩
    have hcells := Store.below_cellsFrom 0 config.inputLength.toNat
    simpa [buffered, Store.size, Segment.size] using hcells
  stack := by simp [buffered, machine]
  busy := False.elim

theorem modest_bytesParam (hp : program.Modest) {f : Function} (hf : f ∈ program.functions) {ty : Ty}
    (h : bytesParam? f = some ty) : ty.Modest := by
  unfold bytesParam? at h
  split at h
  · rename_i first rest hparams
    obtain ⟨-, ⟨⟩⟩ := Option.ite_none_right_eq_some.1 h
    have hmem : ty ∈ f.paramTypes := by simp [hparams]
    exact modest_of_function hp hf (mem_append_left _ (Section.mem_of_mem_slice hmem))
  · cases h

theorem healthy_start (hp : program.Modest) (hconfig : config.Modest)
    (h : t.Starts program name config) : t.start.Healthy program False := by
  -- both kinds of target push the entry frame onto a healthy machine
  have hpush {f : Function} {args : List Arg} {m : Machine} (hf : f ∈ program.functions)
      (hm : m.Healthy program False) (hargs : ∀ a ∈ args, a.Healthy 0)
      (hstart : pushFrame f args none none m = .ok () t.start) :
      t.start.Healthy program False := by
    have hsurvives : Lasts (contract program False True) 0
        (pushFrame f args none none) := survives_pushFrame hp hf hargs none none
    exact (hsurvives.ok hm (Nat.zero_le _) hstart).1
  rcases h with h | h
  · obtain ⟨f, hf, hstart⟩ := ofMain_eq_ok h
    exact hpush (mem_of_find?_eq_some (entry_eq_ok hf)) (healthy_machine hconfig) (by simp) hstart
  · obtain ⟨f, ty, -, hf, hty, -, -, -, hstart⟩ := ofSymbolic_eq_ok h
    have hmem := mem_of_find?_eq_some (entry_eq_ok hf)
    have hroom := inputLength_le_limit h
    refine hpush hmem (healthy_buffered hconfig hroom) (fun a ha => ?_) hstart
    rw [mem_singleton.1 ha]
    exact ⟨⟨trivial, Scalar.below_ofInt _⟩, modest_bytesParam hp hmem hty⟩

theorem Reaches.healthy (hp : program.Modest) (hresolved : program.Resolved)
    (hstart : t.start.Healthy program False) (hstarts : t.start.Resolved program) {m : Machine}
    (h : t.Reaches m) : m.Healthy program False := by
  induction h with
  | refl => exact hstart
  | tail h hleads ih => exact ih.leads hp (Reaches.resolved hresolved hstarts h) hleads

/-- If no step dies, the end of every path is reported. -/
theorem reported_of_isLeaf (hsteps : t.start.steps = 0) (hreleasable : t.start.memory.Releasable)
    (hsafe : ∀ m, t.Reaches m → m.Safe) {m : Machine} (hm : t.Reaches m) (hleaf : m.isLeaf) :
    ∃ r ∈ (t.explore none).reports, m.ending? t.inputLength = some r := by
  obtain ⟨q, ⟨visited, queue, rfl, hfrontier, haccounts, -⟩, hempty⟩ :=
    explore_invariant hsteps t.progress_start fun m q x y ms hx _ habsorb =>
      hx.round hreleasable (fun p m hnode => hsafe m hnode.reaches) habsorb
  have hgoes : (t.explore none).halted = false := by
    simp [Exploration.halted, haccounts.fault, haccounts.stats]
  obtain rfl : queue = [] := map_eq_nil_iff.1 (hempty hgoes)
  obtain ⟨p, hnode⟩ := hm.node
  have hvisited : m ∈ visited.map Prod.snd :=
    mem_map.2 ⟨(p, m), (hfrontier.mem_iff p m).2 hnode, rfl⟩
  have hending : m.ending? t.inputLength ∈ (t.explore none).reports.map some := by
    rw [haccounts.reports]
    exact mem_map_of_mem (mem_filter.2 ⟨hvisited, hleaf⟩)
  obtain ⟨r, hr, hsome⟩ := mem_map.1 hending
  exact ⟨r, hr, hsome.symm⟩

/-- In a program that was loaded strictly, with modest types and limits, a plain instruction that a path
comes to does not die. Exploration dies only if it steps a machine whose instruction is not plain, and
instructions of plain programs are. If all instructions are plain, the end of every path is reported. -/
theorem errors_stay_local {raw : Json} (hload : Program.load raw true = .ok program)
    (hmodest : program.Modest) (hconfig : config.Modest)
    (h : ofMain program name config = .ok t ∨ ofSymbolic program name config = .ok t) :
    (∀ m, t.Reaches m → m.isPlain = true → m.Safe) ∧
    (∀ most, (∀ m, t.Steps most m → m.isPlain = true) → (t.explore most).fault = none) ∧
    (program.isPlain = true → ∀ m, t.Reaches m → m.isPlain = true) ∧
    ((∀ m, t.Reaches m → m.isPlain = true) → ∀ m, t.Reaches m → m.isLeaf = true →
      ∃ r ∈ (t.explore none).reports, m.ending? t.inputLength = some r) := by
  have hresolved := Program.resolved_of_load hload
  have hstarts := resolved_start hresolved h
  have hhealthy {m : Machine} (hm : t.Reaches m) : m.Healthy program False :=
    hm.healthy hmodest hresolved (healthy_start hmodest hconfig h) hstarts
  have hsafe {m : Machine} (hm : t.Reaches m) (hplain : m.isPlain = true) : m.Safe := by
    -- here nothing may die
    have hreport : ∀ e ∈ m.pending, e.Fair := by
      cases hm with
      | refl => simp [(fresh_start h).pending]
      | tail hm hleads => exact (hhealthy hm).fair hmodest hleads
    have hendures : Machine.Endures program False step m :=
      (hhealthy hm).step hmodest (hm.resolved hresolved hstarts) (.inl hreport) (.inl hplain)
    intro c m' herror
    obtain ⟨e, he, -⟩ := (hendures.error herror).resolve_right id
    exact ⟨e, he⟩
  have hreleasable := releasable_start h
  have hsteps := (fresh_start h).steps
  refine ⟨fun m => hsafe, fun most hplain => ?_, fun hplain m hm => (hhealthy hm).isPlain hplain,
    fun hplain m hm hleaf => ?_⟩
  · obtain ⟨q, hmeets⟩ := meets_explore most hsteps
    refine hmeets.invariant (P := fun _ x => x.fault = none) rfl fun m q x y ms hm hx habsorb => ?_
    have hreleasable := hm.reaches.invariant Memory.releasable_invariant hreleasable
    have hturn := turn_expand (hsafe hm.reaches (hplain m hm)) hreleasable t.inputLength
    exact (hturn.fault habsorb).trans hx
  · exact reported_of_isLeaf hsteps hreleasable (fun m hm => hsafe hm (hplain m hm)) hm hleaf

end Target

/-! ## A path that dies -/

namespace Guarded

def firstByte : Json := .obj [("local", .int 1),
  ("projections", .arr [.str "deref", .obj [("const_index", .int 0)]])]

/-- A function that compares its first byte with zero. If they are equal, it overwrites the byte by a
constant, and then it should not be there. -/
def raw (value : Json) : Json := .obj [("functions", .arr [.obj [
  ("name", .str "f"), ("arg_count", .int 1), ("locals", .arr [.str "()", .str "&[u8]"]),
  ("blocks", .arr [
    .obj [("terminator", .obj [("switch_int", .obj [("copy", firstByte)]),
      ("values", .arr [.int 0]), ("targets", .arr [.int 1]), ("otherwise", .int 2)])],
    .obj [("statements", .arr [.obj [("assign", firstByte),
        ("rvalue", .obj [("use", .obj [("const", value), ("ty", .str "u8")])])]]),
      ("terminator", .str "unreachable")],
    .obj [("terminator", .str "return")]])]])]

def function (value : Json) : Function where
  name := .str "f"
  locals := [.unit, .ref (.slice .u8) false]
  argCount := 1
  blocks := [⟨[], .switch (.copy ⟨1, [.deref, .constIndex 0]⟩) [0] [1] 2⟩,
    ⟨[.assign ⟨1, [.deref, .constIndex 0]⟩ (.use (.constant value .u8))], .unreachable⟩, ⟨[], .ret⟩]

def program (value : Json) : Program := ⟨[function value]⟩

def target (value : Json) : Target where
  start := {
    program := program value
    limits := Sample.config.limits
    memory := Sample.memory
    stack := [{ function := function value, locals := [.known 2 0, .known 3 0] }] }
  inputLength := some 1

theorem ofSymbolic_program (value : Json) :
    Target.ofSymbolic (program value) "f" Sample.config = .ok (target value) := by
  rfl

def zero : Condition := Decision.isNumber .u8 [.symbol 0] 0

/-- Some input takes each branch. -/
theorem expand_start (value : Json) : (target value).start.expand (some 1) = .further true
    [(target value).start.counted.taken { condition := zero, next := .goto 1 },
      (target value).start.counted.taken { condition := .not zero, next := .goto 2 }] := by
  let branches := (Decision.switch .u8 [0] [1] 2).branches [.symbol 0]
  have hfeasible : feasibleOnly Sample.memory.store branches = branches := by
    refine filter_eq_self.2 fun b hb => Store.feasible_iff.2 ?_
    rcases mem_cons.1 hb with rfl | hb
    · exact ⟨fun _ => 0, by decide +kernel⟩
    · rw [mem_singleton.1 hb]
      exact ⟨fun _ => 1, by decide +kernel⟩
  have hstep : step (target value).start =
      .ok (.fork (feasibleOnly Sample.memory.store branches)) (target value).start.counted := rfl
  rw [hfeasible] at hstep
  simp only [expand, hstep]
  rfl

/-- A constant that is no number ends exploration before the other path is reported. -/
theorem explore_null : ((target .null).explore none).fault = some .crash ∧
    ((target .null).explore none).reports = [] := by
  have hfault : ((target .null).start.counted.taken
      { condition := zero, next := .goto 1 }).expand (some 1) = .fault .crash := by rfl
  have hexplore : (target .null).explore none =
      Exploration.loop (some 1) none 10 [(target .null).start] [] {} := rfl
  rw [hexplore]
  simp [Exploration.loop, expand_start, hfault, Exploration.absorb, Exploration.halted,
    Exploration.countFork, Exploration.countStep]

theorem modest_config : Sample.config.Modest :=
  ⟨by decide, by decide, by decide, by decide +kernel, by decide +kernel⟩

end Guarded

theorem Target.errors_stay_local_sample :
    Program.load (Guarded.raw (.int 5)) true = .ok (Guarded.program (.int 5)) ∧
    (Guarded.program (.int 5)).Modest ∧ (Guarded.program (.int 5)).isPlain = true ∧
    ofSymbolic (Guarded.program (.int 5)) "f" Sample.config = .ok (Guarded.target (.int 5)) ∧
    (∀ most, ((Guarded.target (.int 5)).explore most).fault = none) ∧
    (∀ m, (Guarded.target (.int 5)).Reaches m → m.Safe ∧ (m.isLeaf = true →
      ∃ r ∈ ((Guarded.target (.int 5)).explore none).reports, m.ending? (some 1) = some r)) ∧
    Program.load (Guarded.raw .null) true = .ok (Guarded.program .null) ∧
    (Guarded.program .null).isPlain = false ∧
    ofSymbolic (Guarded.program .null) "f" Sample.config = .ok (Guarded.target .null) ∧
    ((Guarded.target .null).explore none).fault = some .crash ∧
    ((Guarded.target .null).explore none).reports = [] := by
  have hload : Program.load (Guarded.raw (.int 5)) true = .ok (Guarded.program (.int 5)) := by rfl
  have hmodest : (Guarded.program (.int 5)).Modest := by decide +kernel
  have hplain : (Guarded.program (.int 5)).isPlain = true := by decide +kernel
  have hstart := Guarded.ofSymbolic_program (.int 5)
  obtain ⟨hsafe, hfault, hall, hreports⟩ :=
    errors_stay_local hload hmodest Guarded.modest_config (.inr hstart)
  have hplains := hall hplain
  refine ⟨hload, hmodest, hplain, hstart, fun most => ?_, fun m hm => ⟨?_, hreports hplains m hm⟩,
    by rfl, by decide +kernel, Guarded.ofSymbolic_program _, Guarded.explore_null⟩
  · exact hfault most fun m hm => hplains m hm.reaches
  · exact hsafe m hm (hplains m hm)

end SymExec

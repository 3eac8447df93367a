import Mathlib.Data.List.Chain
import SymExec.Proofs.Frames
import SymExec.Proofs.Tree

/-!
# Exploration terminates

A machine in the queue stands for the tree of executions below it. The steps that its path may still
take bound the height of this tree, and the longest switch of the program bounds the number of its
branches. A round takes one machine from the queue and puts its children there, so the sum of these
bounds over the queue falls with every round, however much the queue grows (`Exploration.round_lt`).
Hence the loop ends, whatever the receiver of the reports answers (`Target.explore_terminates`).
-/
namespace SymExec

open Run List

variable {p : Program} {ms : List Machine}

/-! ## Rounds -/

namespace Exploration

/-- Adds a report and asks its receiver, who knows all reports, whether more are wanted. -/
def deliverTo (x : Exploration) (sink : List Report → Bool) (report : Report) : Exploration :=
  let reports := x.reports ++ [report]
  let failed := if report.outcome.isSuccess then 0 else 1
  { x with
    reports := reports
    stats := { x.stats with
      paths := x.stats.paths + 1
      failures := x.stats.failures + failed
      stopped := !sink reports } }

/-- Takes an expansion into account for any receiver of the reports. -/
def absorbTo (x : Exploration) (sink : List Report → Bool) : Expansion → Exploration × List Machine
  | .further forked machines => (x.countStep.countFork forked, machines)
  | .returned report => (x.countStep.deliverTo sink report, [])
  | .failed report => (x.deliverTo sink report, [])
  | .deadEnd report => (x.countStep.countDeadEnd.deliverTo sink report, [])
  | .fault cause => ({ x with fault := some cause }, [])

def sinkOf (most : Option Int) (reports : List Report) : Bool := wanted most reports.length

theorem absorbTo_sinkOf (x : Exploration) (most : Option Int) (e : Expansion) :
    x.absorbTo (sinkOf most) e = x.absorb most e := by
  cases e <;> rfl

/-- The receiver has no say in which machines join the queue. -/
theorem absorbTo_snd (x : Exploration) (sink : List Report → Bool) (e : Expansion) :
    (x.absorbTo sink e).2 = (x.absorb none e).2 := by
  cases e <;> rfl

/-- One round of the loop: the first machine of the queue takes a step. Without machines, or when
exploration has to end, there is no round. -/
def round? (length : Option Int) (sink : List Report → Bool) :
    List Machine × Exploration → Option (List Machine × Exploration)
  | ([], _) => none
  | (m :: q, x) =>
    if x.halted then none
    else
      let (y, ms) := x.absorbTo sink (m.expand length)
      some (q ++ ms, y)

/-- The queue and what was found after so many rounds. -/
def rounds? (length : Option Int) (sink : List Report → Bool) :
    Nat → List Machine × Exploration → Option (List Machine × Exploration)
  | 0, state => some state
  | n + 1, state => (rounds? length sink n state).bind (round? length sink)

variable {length : Option Int} {sink : List Report → Bool} {state state' : List Machine × Exploration}

theorem round?_eq_none : round? length sink state = none ↔ state.1 = [] ∨ state.2.halted = true := by
  obtain ⟨q, x⟩ := state
  cases q <;> simp [round?]

theorem round?_eq_some (h : round? length sink state = some state') :
    ∃ m q ms, state.1 = m :: q ∧ state'.1 = q ++ ms ∧ (m.LeadsAll ms ∨ ms = []) := by
  obtain ⟨q, x⟩ := state
  cases q with
  | nil => cases h
  | cons m q =>
    simp only [round?] at h
    split at h
    · cases h
    · cases h
      refine ⟨m, q, _, rfl, rfl, ?_⟩
      rw [absorbTo_snd]
      rcases absorb_cases (y := (x.absorb none (m.expand length)).1) rfl with
        ⟨hms, -⟩ | ⟨hms, -⟩ | ⟨hms, -⟩
      · exact .inl hms
      · exact .inr hms
      · exact .inr hms

theorem rounds?_succ (n : Nat) (h : round? length sink state = some state') :
    rounds? length sink (n + 1) state = rounds? length sink n state' := by
  induction n with
  | zero => exact h
  | succ n ih =>
    rw [rounds?, ih]
    rfl

end Exploration

/-! ## The number of branches -/

def Terminator.branching : Terminator → Nat
  | .switch _ values _ _ => values.length + 1
  | .assert _ _ _ _ => 2
  | _ => 1

def Program.branching (p : Program) : Nat :=
  ((p.functions.flatMap Function.blocks).map (·.terminator.branching)).foldr max 1

theorem Program.branching_pos (p : Program) : 1 ≤ p.branching := by
  unfold branching
  induction (p.functions.flatMap Function.blocks).map (·.terminator.branching) with
  | nil => exact Nat.le_refl 1
  | cons n ns ih => exact Nat.le_trans ih (Nat.le_max_right _ _)

theorem Program.branching_le {f : Function} {b : Block} (hf : f ∈ p.functions) (hb : b ∈ f.blocks) :
    b.terminator.branching ≤ p.branching := by
  have hmem : b.terminator.branching ∈
      (p.functions.flatMap Function.blocks).map (·.terminator.branching) :=
    mem_map_of_mem (mem_flatMap.2 ⟨f, hf, hb⟩)
  unfold branching
  generalize (p.functions.flatMap Function.blocks).map (·.terminator.branching) = ns at hmem
  induction ns with
  | nil => cases hmem
  | cons n ns ih =>
    rcases mem_cons.1 hmem with h | h
    · rw [h]
      exact Nat.le_max_left _ _
    · exact Nat.le_trans (ih h) (Nat.le_max_right _ _)

theorem Decision.length_branches_le {d : Decision} {t : Terminator} (hd : d.BelongsTo t)
    (list : List Cell) : (d.branches list).length ≤ t.branching := by
  cases t with
  | switch discr values targets otherwise =>
    obtain ⟨kind, rfl⟩ := hd
    simp only [branches, Terminator.branching, length_append, length_map,
      length_zip, length_singleton]
    omega
  | assert cond expected target message =>
    cases hd
    exact Nat.le_refl 2
  | _ => exact hd.elim

namespace Machine

variable {m m' : Machine}

/-- A machine of a program has at most so many children. -/
theorem LeadsAll.length_le (hm : m.Sound p) (h : m.LeadsAll ms) : ms.length ≤ p.branching := by
  cases h with
  | advance h => exact p.branching_pos
  | @fork bs m' h =>
    obtain ⟨f, rest, b, hstack, hblock, -, d, list, hd, hforks⟩ := stays_of_fork h
    obtain ⟨name, hname⟩ := hm.functions f (by simp [hstack])
    have hkept : bs.length ≤ (d.branches list).length := by
      rw [hforks.branches]
      exact length_filter_le _ _
    calc (bs.map m'.taken).length
        = bs.length := length_map _
      _ ≤ (d.branches list).length := hkept
      _ ≤ b.terminator.branching := d.length_branches_le hd list
      _ ≤ p.branching :=
          Program.branching_le (mem_of_find?_eq_some hname) (mem_of_blockOf hblock)

end Machine

/-! ## The measure -/

namespace Exploration

variable {state : List Machine × Exploration}

/-- The number of nodes of a tree of a height whose nodes have so many children. -/
def treeSize (children : Nat) : Nat → Nat
  | 0 => 1
  | height + 1 => 1 + children * treeSize children height

def height (m : Machine) : Nat := m.limits.steps.toNat - m.steps

/-- The size of the trees below the machines of a queue. -/
def potential (children : Nat) (q : List Machine) : Nat := (q.map fun m => treeSize children (height m)).sum

theorem potential_append (children : Nat) (q q' : List Machine) :
    potential children (q ++ q') = potential children q + potential children q' := by
  simp [potential]

theorem treeSize_pos (children height : Nat) : 1 ≤ treeSize children height := by
  cases height with
  | zero => exact Nat.le_refl 1
  | succ height => exact Nat.le_add_right 1 _

theorem potential_of_height {children n : Nat} (h : ∀ m ∈ ms, height m = n) :
    potential children ms = ms.length * treeSize children n := by
  have hsame : ms.map (fun m => treeSize children (height m))
      = replicate ms.length (treeSize children n) := by
    rw [eq_replicate_iff, length_map]
    refine ⟨rfl, fun k hk => ?_⟩
    obtain ⟨m, hm, rfl⟩ := mem_map.1 hk
    rw [h m hm]
  rw [potential, hsame, sum_replicate_nat]

/-- The trees below the children of a machine are smaller together than the tree below it. -/
theorem potential_leadsAll {m : Machine} (hm : m.Sound p) (h : m.LeadsAll ms) :
    potential p.branching ms < treeSize p.branching (height m) := by
  by_cases hempty : ms = []
  · rw [hempty]
    exact treeSize_pos _ _
  · obtain ⟨first, hfirst⟩ := exists_mem_of_ne_nil ms hempty
    obtain ⟨n, hn⟩ : ∃ n, height m = n + 1 := by
      have hsteps := (h.leads hfirst).steps
      exact ⟨height m - 1, by unfold height; omega⟩
    have hchildren : ∀ m' ∈ ms, height m' = n := by
      intro m' hm'
      have hleads := h.leads hm'
      have hsteps := hleads.steps
      unfold height at hn ⊢
      rw [hleads.extends.limits]
      omega
    rw [potential_of_height hchildren, hn, treeSize]
    have hcount := Nat.mul_le_mul_right (treeSize p.branching n) (h.length_le hm)
    omega

theorem potential_round {length : Option Int} {sink : List Report → Bool}
    {state' : List Machine × Exploration} (hstate : ∀ m ∈ state.1, m.Sound p)
    (h : round? length sink state = some state') :
    potential p.branching state'.1 < potential p.branching state.1 ∧ ∀ m ∈ state'.1, m.Sound p := by
  obtain ⟨m, q, ms, hq, hq', hms⟩ := round?_eq_some h
  rw [hq] at hstate ⊢
  rw [hq']
  have hm : m.Sound p := hstate m mem_cons_self
  have hrest : ∀ m' ∈ q, m'.Sound p := fun m' hm' => hstate m' (mem_cons_of_mem m hm')
  have hsize : potential p.branching (m :: q)
      = treeSize p.branching (height m) + potential p.branching q := by
    simp [potential]
  rw [potential_append, hsize]
  rcases hms with hms | rfl
  · have hless := potential_leadsAll hm hms
    refine ⟨by omega, fun m' hm' => ?_⟩
    rcases mem_append.1 hm' with hm' | hm'
    · exact hrest m' hm'
    · exact hm.extends (hms.leads hm').extends
  · have hpos := treeSize_pos p.branching (height m)
    have hnone : potential p.branching [] = 0 := rfl
    exact ⟨by omega, by simpa using hrest⟩

/-- The loop ends after at most as many rounds as the potential of its queue. -/
theorem exists_last_round (length : Option Int) (sink : List Report → Bool)
    (hstate : ∀ m ∈ state.1, m.Sound p) :
    ∃ n ≤ potential p.branching state.1, ∃ last,
      rounds? length sink n state = some last ∧ round? length sink last = none := by
  -- induction on the potential, which falls with every round
  induction hbound : potential p.branching state.1 using Nat.strong_induction_on
    generalizing state with
  | _ bound ih =>
    cases hround : round? length sink state with
    | none => exact ⟨0, Nat.zero_le _, state, rfl, hround⟩
    | some state' =>
      obtain ⟨hless, hstate'⟩ := potential_round hstate hround
      rw [hbound] at hless
      obtain ⟨n, hn, last, hlast, hend⟩ := ih _ hless hstate' rfl
      exact ⟨n + 1, by omega, last, (rounds?_succ n hround).trans hlast, hend⟩

end Exploration

/-! ## Steps along a path -/

namespace Target

open Exploration

variable {program : Program} {name : String} {config : Config} {t : Target} {m m' : Machine}

theorem limits_start (h : t.Starts program name config) : t.start.limits = config.limits := by
  obtain ⟨f, args, m, hf, hpush, hm⟩ := start_eq_ok h
  have hlimits := (steady_pushFrame args hf).limits
  rw [final_of_ok hpush] at hlimits
  rw [hlimits]
  rcases hm with rfl | ⟨-, rfl⟩ <;> rfl

/-- A path that goes on has a frame. -/
theorem Reaches.stack_ne_nil (hstart : t.start.stack ≠ []) (h : t.Reaches m) : m.stack ≠ [] := by
  induction h with
  | refl => exact hstart
  | tail _ hleads ih =>
    obtain ⟨f, rest, hstack, ⟨hmoves, -⟩ | ⟨hsame, -⟩⟩ := hleads.moves
    · exact hmoves.ne_nil
    · rw [hsame]
      exact ih

theorem stack_start_ne_nil (h : t.Starts program name config) : t.start.stack ≠ [] := by
  obtain ⟨f, args, m, -, hpush, -⟩ := start_eq_ok h
  obtain ⟨locals, -, hstack⟩ := Machine.stack_pushFrame hpush
  rw [hstack]
  exact cons_ne_nil _ _

theorem Reaches.limits (h : t.Reaches m) : m.limits = t.start.limits := by
  induction h with
  | refl => rfl
  | tail _ hleads ih => rw [hleads.extends.limits, ih]

theorem Reaches.steps_le (hstart : t.start.steps = 0) (h : t.Reaches m) :
    m.steps ≤ t.start.limits.steps.toNat := by
  cases h with
  | refl =>
    rw [hstart]
    exact Nat.zero_le _
  | tail hreaches hleads =>
    have hwithin := hleads.steps.2
    rw [Reaches.limits hreaches] at hwithin
    omega

/-- So are they with the next one, if it succeeds. -/
theorem Reaches.steps_lt (hstart : t.start.stack ≠ []) (h : t.Reaches m) (hreturns : m.returns) :
    m.steps < t.start.limits.steps.toNat := by
  unfold Machine.returns at hreturns
  cases hstep : Machine.step m with
  | error e m' =>
    rw [hstep] at hreturns
    cases hreturns
  | ok r m' =>
    have hlimit : (↑(m.steps + 1) : Int) ≤ m.limits.steps :=
      (Machine.steady_of_step hstep (h.stack_ne_nil hstart)).1
    rw [h.limits] at hlimit
    omega

theorem steps_of_chain {first : Machine} (h : (first :: ms).IsChain Machine.Leads)
    (hlast : (first :: ms).getLast? = some m) : m.steps = first.steps + ms.length := by
  induction ms generalizing first with
  | nil =>
    cases hlast
    rfl
  | cons next ms ih =>
    obtain ⟨hleads, hrest⟩ := isChain_cons_cons.1 h
    have hnext := ih hrest (by simpa using hlast)
    have hsteps := hleads.steps.1
    rw [length_cons]
    omega

theorem reaches_of_chain (h : (t.start :: ms).IsChain Machine.Leads)
    (hlast : (t.start :: ms).getLast? = some m) : t.Reaches m :=
  relationReflTransGen_of_exists_isChain_cons ms h
    ((getLast_eq_iff_getLast?_eq_some _).2 hlast)

/-- The loop ends, for every receiver of the reports: a bound on the number of rounds is the size of
a tree as high as the limit of steps and with as many branches as the longest switch. The exploration
that is made comes to the same end for the receiver that wants so many reports. A machine has taken as
many steps as its path is long, whether it was the only one or a copy made at a fork; with the last
one, if it succeeds, they are no more than the limit. -/
theorem explore_terminates
    (h : ofMain program name config = .ok t ∨ ofSymbolic program name config = .ok t) :
    (∀ sink, ∃ n ≤ treeSize program.branching config.limits.steps.toNat, ∃ q x,
      rounds? t.inputLength sink n ([t.start], {}) = some (q, x) ∧ (q = [] ∨ x.halted = true)) ∧
    (∀ most, ∃ n q, rounds? t.inputLength (sinkOf most) n ([t.start], {})
        = some (q, t.explore most) ∧ (q = [] ∨ (t.explore most).halted = true)) ∧
    ∀ ms m, (t.start :: ms).IsChain Machine.Leads → (t.start :: ms).getLast? = some m →
      m.steps = ms.length ∧ ms.length ≤ config.limits.steps.toNat ∧
      (m.returns = true → ms.length + 1 ≤ config.limits.steps.toNat) := by
  have hfresh := fresh_start h
  have hlimits := limits_start h
  refine ⟨fun sink => ?_, fun most => ?_, fun ms m hchain hlast => ?_⟩
  · have hstart : ∀ m ∈ (([t.start], {}) : List Machine × Exploration).1, m.Sound program := by
      simpa using hfresh.sound
    have hpotential : potential program.branching [t.start]
        = treeSize program.branching config.limits.steps.toNat := by
      simp [potential, height, hfresh.steps, hlimits]
    obtain ⟨n, hn, ⟨q, x⟩, hlast, hend⟩ := exists_last_round t.inputLength sink hstart
    rw [hpotential] at hn
    exact ⟨n, hn, q, x, hlast, round?_eq_none.1 hend⟩
  · let P (q : List Machine) (x : Exploration) : Prop :=
      ∃ n, rounds? t.inputLength (sinkOf most) n ([t.start], {}) = some (q, x)
    have hround : ∀ m q x y ms, P (m :: q) x → x.halted = false →
        x.absorb most (m.expand t.inputLength) = (y, ms) → P (q ++ ms) y := by
      rintro m q x y ms ⟨n, hn⟩ hgoes habsorb
      exact ⟨n + 1, by simp [rounds?, hn, round?, hgoes, absorbTo_sinkOf, habsorb]⟩
    obtain ⟨q, ⟨n, hn⟩, hempty⟩ := explore_invariant hfresh.steps ⟨0, rfl⟩ hround
    refine ⟨n, q, hn, ?_⟩
    cases hhalted : (t.explore most).halted with
    | true => exact .inr rfl
    | false => exact .inl (hempty hhalted)
  · have hreaches := reaches_of_chain hchain hlast
    have hsteps := steps_of_chain hchain hlast
    rw [hfresh.steps, Nat.zero_add] at hsteps
    rw [← hlimits, ← hsteps]
    exact ⟨rfl, hreaches.steps_le hfresh.steps, hreaches.steps_lt (stack_start_ne_nil h)⟩

end Target

/-! ## A loop that forks in every round -/

namespace Endless

/-- Whatever the first byte is, the function looks at it again. -/
def function : Function where
  name := .str "f"
  locals := [.unit, .ref (.slice .u8) false]
  argCount := 1
  blocks := [⟨[], .switch (.copy ⟨1, [.deref, .constIndex 0]⟩) [0] [0] 0⟩]

def config : Config := { limits := { steps := 3 }, inputLength := 1 }

def target : Target where
  start := {
    program := ⟨[function]⟩
    limits := config.limits
    memory := Sample.memory
    stack := [{ function := function, locals := [.known 2 0, .known 3 0] }] }
  inputLength := some 1

end Endless

theorem Target.explore_terminates_sample :
    Target.ofSymbolic ⟨[Endless.function]⟩ "f" Endless.config = .ok Endless.target ∧
    ∀ sink, ∃ n ≤ 15, ∃ q x,
      Exploration.rounds? (some 1) sink n ([Endless.target.start], {}) = some (q, x) ∧
        (q = [] ∨ x.halted = true) := by
  have hstart : Target.ofSymbolic ⟨[Endless.function]⟩ "f" Endless.config = .ok Endless.target := rfl
  exact ⟨hstart, (Target.explore_terminates (.inr hstart)).1⟩

end SymExec

import Mathlib.Data.List.Shortlex
import SymExec.Proofs.Coverage

/-!
# The tree of executions

A machine whose step goes on has one child, and one whose step forks has a child for each outcome.
A node of the tree is named by the outcomes on the way to it from the start (`Target.Node`). The
order of exploration is that of the names by length and then from left to right: the children of a
machine join the queue behind all nodes that come before them (`Frontier.step`). So every node is
visited once, every leaf is reported once, and the counters count nodes (`explore_breadth_first`).
-/
namespace SymExec

open Run List Machine

variable {e : Expansion} {length most : Option Int} {x y : Exploration} {ms : List Machine}

/-! ## Nodes -/

namespace Machine

variable {i : Nat} {m' : Machine}

/-- An outcome of the next step leads to a machine. A step that does not fork has one outcome. -/
inductive Child (m : Machine) : Nat → Machine → Prop where
  | advance {m' : Machine} (h : step m = .ok .advance m') : Child m 0 m'
  | outcome {bs : List Branch} {b : Branch} {i : Nat} {m1 m' : Machine}
    (h : step m = .ok (.fork bs) m1) (hb : bs[i]? = some b) (hm : m1.branch b = .ok m') : Child m i m'

def returns (m : Machine) : Bool :=
  match step m with
  | .ok _ _ => true
  | .error _ _ => false

/-- The number of outcomes of the next step, if it forks. -/
def outcomes? (m : Machine) : Option Nat :=
  match step m with
  | .ok (.fork bs) _ => some bs.length
  | _ => none

/-- Whether the path ends with the next step: it raises, the entry function returns, or no outcome
of a fork is possible. -/
def isLeaf (m : Machine) : Bool :=
  match step m with
  | .ok .advance _ => false
  | .ok (.fork bs) _ => bs.isEmpty
  | .ok .done _ => true
  | .error _ _ => true

def ending? (length : Option Int) (m : Machine) : Option Report :=
  match step m with
  | .error (.error e) m' => some (m'.failureReport length e)
  | .ok (.fork []) m' => some (m'.failureReport length .noBranch)
  | .ok .done m' => (m'.successReport length).toOption
  | _ => none

theorem Child.leads {m : Machine} (h : m.Child i m') : m.Leads m' := by
  cases h with
  | advance h => exact .advance h
  | outcome h hb hm => exact .take h (mem_of_getElem? hb) hm

/-- The next step does not die with anything but an error of the program. -/
def Safe (m : Machine) : Prop :=
  ∀ cause m', step m = .error cause m' → ∃ e, cause = .error e

theorem releaseRoot_of_releasable {memory : Memory} (h : memory.Releasable) :
    ∃ memory', releaseRoot memory = .ok memory' := by
  unfold releaseRoot
  cases hroot : memory.root with
  | none => exact ⟨memory, rfl⟩
  | some root =>
    cases hfind : memory.find? root with
    | none => simp [Memory.isLive, hfind]
    | some a =>
      have hregion := h.region root (by simp [hroot]) _ (Memory.mem_of_lookup hfind) rfl
      simp [Memory.isLive, hfind, Memory.deallocate_eq, hregion]

theorem successReport_of_releasable {m : Machine} (h : m.memory.Releasable) (length : Option Int) :
    ∃ r, m.successReport length = .ok r := by
  obtain ⟨memory, hmemory⟩ := releaseRoot_of_releasable h
  unfold successReport
  cases m.leastInput length with
  | error e => exact ⟨_, rfl⟩
  | ok input =>
    simp only [hmemory]
    exact ⟨_, rfl⟩

/-- The five ways in which the next step can end, and what each of them leads to. -/
inductive Turn (length : Option Int) (m : Machine) : Expansion → Prop where
  | raises {e : EvalError} {m' : Machine} (h : step m = .error (.error e) m') :
    Turn length m (.failed (m'.failureReport length e))
  | advances {m' : Machine} (h : step m = .ok .advance m') : Turn length m (.further false [m'])
  | stops {m' : Machine} (h : step m = .ok (.fork []) m') :
    Turn length m (.deadEnd (m'.failureReport length .noBranch))
  | forks {b : Branch} {bs : List Branch} {m' : Machine} (h : step m = .ok (.fork (b :: bs)) m')
    (hbranch : ∀ c ∈ b :: bs, m'.branch c = .ok (m'.taken c)) :
    Turn length m (.further true ((b :: bs).map m'.taken))
  | finishes {m' : Machine} {r : Report} (h : step m = .ok .done m')
    (hr : m'.successReport length = .ok r) : Turn length m (.returned r)

theorem turn_expand {m : Machine} (hsafe : m.Safe) (hreleasable : m.memory.Releasable)
    (length : Option Int) : m.Turn length (m.expand length) := by
  unfold expand
  cases hstep : step m with
  | error cause m' =>
    obtain ⟨e, rfl⟩ := hsafe cause m' hstep
    exact .raises hstep
  | ok result m' =>
    cases result with
    | advance => exact .advances hstep
    | done =>
      have hfinal := invariant_step Memory.releasable_invariant hreleasable
      rw [final_of_ok hstep] at hfinal
      obtain ⟨r, hr⟩ := successReport_of_releasable hfinal length
      simp only [hr]
      exact .finishes hstep hr
    | fork bs =>
      cases bs with
      | nil => exact .stops hstep
      | cons b bs =>
        obtain ⟨f, block, -, -, -, d, list, -, hrun⟩ := fork_cases hstep
        have hforks := forksAt_of_run hrun
        simp only [hforks.mapM_branch]
        exact .forks hstep fun c hc => branch_of_plain (hforks.plain c hc)

/-- The machines that join the queue are the children, in order. -/
theorem Turn.child_iff {m : Machine} (h : m.Turn length e) (habsorb : x.absorb most e = (y, ms)) :
    m.Child i m' ↔ ms[i]? = some m' := by
  cases h with
  | raises h =>
    cases habsorb
    constructor
    · rintro (⟨hstep⟩ | ⟨hstep, -, -⟩) <;> cases hstep.symm.trans h
    · simp
  | advances h =>
    cases habsorb
    constructor
    · rintro (⟨hstep⟩ | ⟨hstep, -, -⟩) <;> cases hstep.symm.trans h
      simp
    · intro hget
      obtain ⟨rfl, rfl⟩ : i = 0 ∧ _ = m' := by simpa [getElem?_cons] using hget
      exact .advance h
  | stops h =>
    cases habsorb
    constructor
    · rintro (⟨hstep⟩ | ⟨hstep, hb, -⟩) <;> cases hstep.symm.trans h
      simp at hb
    · simp
  | forks h hbranch =>
    cases habsorb
    rw [getElem?_map]
    constructor
    · rintro (⟨hstep⟩ | ⟨hstep, hb, hm⟩) <;> cases hstep.symm.trans h
      rw [hb, Option.map_some]
      rw [hbranch _ (mem_of_getElem? hb)] at hm
      exact congrArg some (Except.ok.inj hm)
    · intro hget
      obtain ⟨c, hc, rfl⟩ := Option.map_eq_some_iff.1 hget
      exact .outcome h hc (hbranch c (mem_of_getElem? hc))
  | finishes h hr =>
    cases habsorb
    constructor
    · rintro (⟨hstep⟩ | ⟨hstep, -, -⟩) <;> cases hstep.symm.trans h
    · simp

end Machine

/-! ## Accounts -/

namespace Exploration

/-- What was found at the nodes that were visited: a report for each leaf, and counts of nodes. -/
structure Accounts (length : Option Int) (x : Exploration) (ms : List Machine) : Prop where
  reports : x.reports.map some = (ms.filter isLeaf).map (ending? length)
  stats : x.stats = {
    paths := x.reports.length
    failures := x.reports.countP fun r => !r.outcome.isSuccess
    forks := (ms.filterMap outcomes?).countP (0 < ·)
    infeasibleForks := (ms.filterMap outcomes?).count 0
    steps := ms.countP returns }
  fault : x.fault = none

theorem stats_deliver (x : Exploration) (r : Report) : (x.deliver none r).stats = { x.stats with
    paths := x.stats.paths + 1
    failures := x.stats.failures + [r].countP fun r => !r.outcome.isSuccess
    stopped := false } := by
  cases hsuccess : r.outcome.isSuccess <;> simp [deliver, wanted, hsuccess]

theorem Accounts.visit {m : Machine} {more : List Machine} (h : x.Accounts length ms)
    (hturn : m.Turn length e) (habsorb : x.absorb none e = (y, more)) :
    y.Accounts length (ms ++ [m]) := by
  cases hturn with
  | raises hstep =>
    cases habsorb
    constructor
    · simp [deliver, h.reports, isLeaf, ending?, hstep]
    · rw [stats_deliver]
      simp [deliver, h.stats, outcomes?, returns, hstep]
    · exact h.fault
  | advances hstep =>
    cases habsorb
    constructor
    · simp [countFork, countStep, h.reports, isLeaf, hstep]
    · simp [countFork, countStep, h.stats, outcomes?, returns, hstep]
    · exact h.fault
  | stops hstep =>
    cases habsorb
    constructor
    · simp [deliver, countStep, countDeadEnd, h.reports, isLeaf, ending?, hstep]
    · rw [stats_deliver]
      simp [deliver, countStep, countDeadEnd, h.stats, outcomes?, returns, hstep]
    · exact h.fault
  | forks hstep hbranch =>
    cases habsorb
    constructor
    · simp [countFork, countStep, h.reports, isLeaf, hstep]
    · simp [countFork, countStep, h.stats, outcomes?, returns, hstep]
    · exact h.fault
  | finishes hstep hr =>
    cases habsorb
    constructor
    · simp [deliver, countStep, h.reports, isLeaf, ending?, hstep, hr, Except.toOption]
    · rw [stats_deliver]
      simp [deliver, countStep, h.stats, outcomes?, returns, hstep]
    · exact h.fault

end Exploration

/-- A leaf is one path less to follow and one path more that has ended; a fork adds a path for each
outcome but one. -/
theorem Machine.Turn.balance {m : Machine} (h : m.Turn length e)
    (habsorb : x.absorb most e = (y, ms)) :
    ([m].filter isLeaf).length + ms.length =
      1 + ((([m].filterMap outcomes?).filter (0 < ·)).map (· - 1)).sum := by
  cases h with
  | raises h | advances h | stops h | finishes h =>
    cases habsorb
    simp [isLeaf, outcomes?, h]
  | forks h =>
    cases habsorb
    simp [isLeaf, outcomes?, h]
    omega

/-! ## Order -/

/-- Names stay in order when they are followed by more. -/
theorem shortlex_append {p q : List Nat} (h : List.Shortlex (· < ·) p q) (i j : Nat) :
    List.Shortlex (· < ·) (p ++ [i]) (q ++ [j]) := by
  rcases shortlex_def.1 h with hlt | ⟨hlength, hlex⟩
  · exact .of_length_lt (by simpa using hlt)
  · refine .of_lex (by simpa using hlength) ?_
    clear h
    induction hlex with
    | nil => simp at hlength
    | cons _ ih => exact .cons (ih (by simpa using hlength))
    | rel hab => exact .rel hab

namespace Target

variable {t : Target} {m : Machine} {p : List Nat} {visited : List (List Nat × Machine)}

/-- The nodes of the tree of executions, by the outcomes on the way to them. -/
inductive Node (t : Target) : List Nat → Machine → Prop where
  | start : Node t [] t.start
  | child {p : List Nat} {m m' : Machine} {i : Nat} (h : Node t p m) (hchild : m.Child i m') :
    Node t (p ++ [i]) m'

theorem Node.invariant {I : Memory → Prop} (hI : Memory.Invariant I) (h : t.Node p m)
    (hstart : I t.start.memory) : I m.memory := by
  induction h with
  | start => exact hstart
  | child _ hchild ih => exact hchild.leads.invariant hI ih

/-- The nodes of machines that are the children of a node, in order. -/
def offspring (p : List Nat) (ms : List Machine) : List (List Nat × Machine) :=
  ms.mapIdx fun i m => (p ++ [i], m)

theorem map_snd_offspring (p : List Nat) (ms : List Machine) :
    (offspring p ms).map Prod.snd = ms := by
  refine ext_getElem? fun i => ?_
  rw [getElem?_map, offspring, getElem?_mapIdx]
  cases ms[i]? <;> rfl

theorem mem_offspring {x : List Nat × Machine} :
    x ∈ offspring p ms ↔ ∃ i m, ms[i]? = some m ∧ x = (p ++ [i], m) := by
  simp [offspring, mem_iff_getElem?, eq_comm]

theorem pairwise_offspring (p : List Nat) (ms : List Machine) :
    (offspring p ms).Pairwise fun x y => List.Shortlex (· < ·) x.1 y.1 := by
  rw [pairwise_iff_getElem]
  intro i j hi hj hlt
  simp only [offspring, getElem_mapIdx]
  exact List.Shortlex.append_left (by simpa using hlt) p

/-- Nodes that were visited and nodes in the queue, in the order of their names. All children of the
former are there, and every node but the start is such a child. -/
structure Frontier (t : Target) (visited queue : List (List Nat × Machine)) : Prop where
  sorted : (visited ++ queue).Pairwise fun x y => List.Shortlex (· < ·) x.1 y.1
  nodes : ∀ x ∈ visited ++ queue, t.Node x.1 x.2
  start : ([], t.start) ∈ visited ++ queue
  children : ∀ x ∈ visited, ∀ i m, x.2.Child i m → (x.1 ++ [i], m) ∈ visited ++ queue
  parents : ∀ x ∈ visited ++ queue, x.1 = [] ∨ ∃ y ∈ visited, ∃ i, x.1 = y.1 ++ [i]

theorem frontier_start (t : Target) : t.Frontier [] [([], t.start)] where
  sorted := pairwise_singleton _ _
  nodes x hx := by
    rw [mem_singleton.1 hx]
    exact .start
  start := by simp
  children := by simp
  parents x hx := by
    rw [mem_singleton.1 hx]
    exact .inl rfl

theorem Frontier.step {queue : List (List Nat × Machine)} (h : t.Frontier visited ((p, m) :: queue))
    (hms : ∀ i m', m.Child i m' ↔ ms[i]? = some m') :
    t.Frontier (visited ++ [(p, m)]) (queue ++ offspring p ms) := by
  have hall : visited ++ [(p, m)] ++ (queue ++ offspring p ms) =
      visited ++ (p, m) :: queue ++ offspring p ms := by simp
  constructor
  · rw [hall]
    refine pairwise_append.2 ⟨h.sorted, pairwise_offspring p ms, fun x hx y hy => ?_⟩
    obtain ⟨j, m', -, rfl⟩ := mem_offspring.1 hy
    rcases h.parents x hx with hroot | ⟨z, hz, i, hchild⟩
    · rw [hroot]
      exact .of_length_lt (by simp)
    · -- the parent was visited before this machine, so its children come before this one's
      have hbefore := (pairwise_append.1 h.sorted).2.2 z hz (p, m) mem_cons_self
      rw [hchild]
      exact shortlex_append hbefore i j
  · rw [hall]
    intro x hx
    rcases mem_append.1 hx with hx | hx
    · exact h.nodes x hx
    · obtain ⟨i, m', hm', rfl⟩ := mem_offspring.1 hx
      exact .child (h.nodes (p, m) (by simp)) ((hms i m').2 hm')
  · rw [hall]
    exact mem_append_left _ h.start
  · rw [hall]
    intro x hx i m' hchild
    rcases mem_append.1 hx with hx | hx
    · exact mem_append_left _ (h.children x hx i m' hchild)
    · rw [mem_singleton.1 hx] at hchild ⊢
      exact mem_append_right _ (mem_offspring.2 ⟨i, m', (hms i m').1 hchild, rfl⟩)
  · rw [hall]
    intro x hx
    rcases mem_append.1 hx with hx | hx
    · rcases h.parents x hx with hroot | ⟨y, hy, i, hchild⟩
      · exact .inl hroot
      · exact .inr ⟨y, mem_append_left _ hy, i, hchild⟩
    · obtain ⟨i, m', -, rfl⟩ := mem_offspring.1 hx
      exact .inr ⟨(p, m), by simp, i, rfl⟩

/-- When the queue is empty, all nodes were visited. -/
theorem Frontier.mem_iff (h : t.Frontier visited []) (p : List Nat) (m : Machine) :
    (p, m) ∈ visited ↔ t.Node p m := by
  constructor
  · exact fun hmem => h.nodes (p, m) (by simpa using hmem)
  · intro hnode
    induction hnode with
    | start => simpa using h.start
    | child _ hchild ih => simpa using h.children _ ih _ _ hchild

/-- How far exploration has come: nodes were visited and accounted for, and the others wait. The paths
that have ended and those that are followed are one and what forks have added. -/
def Progress (t : Target) (q : List Machine) (x : Exploration) : Prop :=
  ∃ visited queue : List (List Nat × Machine), queue.map Prod.snd = q ∧ t.Frontier visited queue ∧
    x.Accounts t.inputLength (visited.map Prod.snd) ∧
    ((visited.map Prod.snd).filter isLeaf).length + q.length =
      1 + ((((visited.map Prod.snd).filterMap outcomes?).filter (0 < ·)).map (· - 1)).sum

theorem progress_start (t : Target) : t.Progress [t.start] {} :=
  ⟨[], [([], t.start)], rfl, t.frontier_start, ⟨rfl, rfl, rfl⟩, rfl⟩

theorem Progress.round (hreleasable : t.start.memory.Releasable)
    (hsafe : ∀ p m, t.Node p m → m.Safe) {q : List Machine} (h : t.Progress (m :: q) x)
    (habsorb : x.absorb none (m.expand t.inputLength) = (y, ms)) : t.Progress (q ++ ms) y := by
  obtain ⟨visited, queue, hqueue, hfrontier, haccounts, hbalance⟩ := h
  obtain ⟨⟨p, m⟩, queue, rfl, rfl, rfl⟩ := map_eq_cons_iff.1 hqueue
  have hnode : t.Node p m := hfrontier.nodes (p, m) (by simp)
  have hturn : m.Turn t.inputLength (m.expand t.inputLength) :=
    turn_expand (hsafe p m hnode) (hnode.invariant Memory.releasable_invariant hreleasable) _
  refine ⟨visited ++ [(p, m)], queue ++ offspring p ms, ?_, ?_, ?_, ?_⟩
  · rw [map_append, map_snd_offspring]
  · exact hfrontier.step fun _ _ => hturn.child_iff habsorb
  · rw [map_append]
    exact haccounts.visit hturn habsorb
  · have hnew := hturn.balance habsorb
    simp only [map_append, filter_append, filterMap_append, length_append,
      sum_append, length_cons, map_cons, map_nil] at hbalance hnew ⊢
    omega

/-- A target can free its buffer at the start. -/
theorem releasable_start {program : Program} {name : String} {config : Config}
    (h : t.Starts program name config) : t.start.memory.Releasable := by
  refine invariant_start Memory.releasable_invariant ?_ ?_ h
  · exact ⟨by simp [machine], by simp [machine]⟩
  · exact fun _ => ⟨by simp [buffered], by simp [buffered]⟩

/-- If no step of a node dies, exploration that is never stopped visits every node of the tree of
executions once, level by level and from left to right. It delivers one report for each leaf in that
order, and the counters say how many nodes forked, in vain or not, and returned from their step. -/
theorem explore_breadth_first {program : Program} {name : String} {config : Config} {t : Target}
    (h : ofMain program name config = .ok t ∨ ofSymbolic program name config = .ok t)
    (hsafe : ∀ p m, t.Node p m → m.Safe) :
    ∃ nodes : List (List Nat × Machine),
      (nodes.Pairwise fun x y => List.Shortlex (· < ·) x.1 y.1) ∧
      (∀ p m, (p, m) ∈ nodes ↔ t.Node p m) ∧
      (t.explore none).reports.map some =
        (nodes.filter fun x => x.2.isLeaf).map (fun x => x.2.ending? t.inputLength) ∧
      (t.explore none).fault = none ∧
      (t.explore none).stats = {
        paths := (t.explore none).reports.length
        failures := (t.explore none).reports.countP fun r => !r.outcome.isSuccess
        forks := (nodes.filterMap fun x => x.2.outcomes?).countP (0 < ·)
        infeasibleForks := (nodes.filterMap fun x => x.2.outcomes?).count 0
        steps := nodes.countP fun x => x.2.returns
        stopped := false } ∧
      (t.explore none).stats.paths =
        1 + (((nodes.filterMap fun x => x.2.outcomes?).filter (0 < ·)).map (· - 1)).sum := by
  have hsteps : t.start.steps = 0 := h.elim (fun h => (fresh_ofMain h).steps)
    fun h => (fresh_ofSymbolic h).steps
  obtain ⟨q, ⟨visited, queue, rfl, hfrontier, haccounts, hbalance⟩, hempty⟩ :=
    explore_invariant hsteps t.progress_start fun m q x y ms hx _ habsorb =>
      hx.round (releasable_start h) hsafe habsorb
  have hgoes : (t.explore none).halted = false := by
    simp [Exploration.halted, haccounts.fault, haccounts.stats]
  obtain rfl : queue = [] := map_eq_nil_iff.1 (hempty hgoes)
  have hreports := haccounts.reports
  have hstats := haccounts.stats
  have hpaths : (t.explore none).stats.paths = ((visited.map Prod.snd).filter isLeaf).length := by
    rw [hstats]
    simpa using congrArg length hreports
  rw [filter_map, map_map] at hreports
  rw [filterMap_map, countP_map] at hstats
  rw [filterMap_map] at hbalance
  exact ⟨visited, by simpa using hfrontier.sorted, hfrontier.mem_iff, hreports, haccounts.fault, hstats,
    hpaths.trans hbalance⟩

end Target

namespace Sample

/-- The start forks, and both branches return. -/
theorem cases_node {p : List Nat} {m : Machine} (h : (target [7]).Node p m) :
    m = (target [7]).start ∨ ∃ c, m = taken [7] c := by
  induction h with
  | start => exact .inl rfl
  | child _ hchild ih =>
    refine .inr ?_
    rcases ih with rfl | ⟨c, rfl⟩
    · cases hchild with
      | advance h => cases fork_start.symm.trans h
      | outcome h hb hm =>
        cases fork_start.symm.trans h
        have hbranches : ∀ b ∈ (decision [7]).branches [.symbol 0],
            ∃ c, b = { condition := c, next := .goto 1 } := by
          simp [decision, Decision.branches]
        obtain ⟨c, rfl⟩ := hbranches _ (mem_of_getElem? hb)
        rw [branch_of_plain rfl] at hm
        exact ⟨c, (Except.ok.inj hm).symm⟩
    · obtain ⟨m', hstep, -⟩ := step_taken [7] c
      cases hchild with
      | advance h | outcome h _ _ => cases hstep.symm.trans h

theorem safe_node {p : List Nat} {m : Machine} (h : (target [7]).Node p m) : m.Safe := by
  intro cause m' herror
  rcases cases_node h with rfl | ⟨c, rfl⟩
  · cases fork_start.symm.trans herror
  · obtain ⟨m', hstep, -⟩ := step_taken [7] c
    cases hstep.symm.trans herror

end Sample

theorem Target.explore_breadth_first_sample :
    Target.ofSymbolic (Sample.program [7]) "f" Sample.config = .ok (Sample.target [7]) ∧
    (∀ p m, (Sample.target [7]).Node p m → m.Safe) ∧
    ∃ nodes : List (List Nat × Machine),
      (nodes.Pairwise fun x y => List.Shortlex (· < ·) x.1 y.1) ∧
      (∀ p m, (p, m) ∈ nodes ↔ (Sample.target [7]).Node p m) ∧
      ((Sample.target [7]).explore none).reports.map some =
        (nodes.filter fun x => x.2.isLeaf).map (fun x => x.2.ending? (some 1)) ∧
      ((Sample.target [7]).explore none).stats.paths =
        1 + (((nodes.filterMap fun x => x.2.outcomes?).filter (0 < ·)).map (· - 1)).sum := by
  have hstart := Sample.ofSymbolic_program [7]
  have hsafe : ∀ p m, (Sample.target [7]).Node p m → m.Safe := fun _ _ => Sample.safe_node
  obtain ⟨nodes, hsorted, hmem, hreports, -, -, hpaths⟩ :=
    Target.explore_breadth_first (.inr hstart) hsafe
  exact ⟨hstart, hsafe, nodes, hsorted, hmem, hreports, hpaths⟩

end SymExec

import SymExec.Proofs.Coverage

/-!
# Paths that share an input

The branches of a fork exclude each other exactly where the decision lists no number twice that the
bytes can spell (`Machine.ForksAt.pairwise_iff`). An assertion lists none, so only a switch can break
the rule. Two reported paths share an input only if the input has come to such a switch on its way
(`Target.shared_input`).
-/
namespace SymExec

open Run List Machine

variable {m : Machine}

/-- At most one item has a property if no two items both have it. -/
theorem pairwise_not_both_iff {α : Type} {p : α → Bool} {xs : List α} :
    xs.Pairwise (fun a b => ¬ (p a = true ∧ p b = true)) ↔ xs.countP p ≤ 1 := by
  induction xs with
  | nil => simp
  | cons a xs ih =>
    rw [pairwise_cons, ih]
    cases ha : p a with
    | false => simp [ha]
    | true =>
      have hcount : (a :: xs).countP p ≤ 1 ↔ xs.countP p = 0 := by
        rw [countP_cons_of_pos ha]
        omega
      rw [hcount, countP_eq_zero]
      constructor
      · exact fun h b hb hpb => h.1 b hb ⟨rfl, hpb⟩
      · intro h
        refine ⟨fun b hb hboth => h b hb hboth.2, ?_⟩
        rw [countP_eq_zero.2 h]
        exact Nat.zero_le 1

namespace Machine

variable {d : Decision} {list : List Cell} {bs : List Branch}

/-! ## Forks -/

/-- Under a valuation of the parent's store, as many branches of a fork are taken as list the number
that the bytes spell, or one if none does. -/
theorem ForksAt.countP (h : m.ForksAt bs d list) (hd : d.Balanced) (hm : m.memory.store.WellFormed)
    {v : Valuation} (hv : m.memory.store.Models v) :
    bs.countP (·.condition.holds v) = max 1 (d.listings (Cell.valueOf v list)) := by
  rw [← Decision.countP_branches hd list v, h.branches, feasibleOnly, countP_filter]
  apply countP_congr
  intro b hb
  rw [Bool.and_eq_true]
  constructor
  · exact And.left
  · exact fun hholds => ⟨hholds, hv.feasible hm (h.symbols b hb) hholds⟩

/-- The branches of a fork exclude each other if and only if no number that the bytes can spell is
listed twice. -/
theorem ForksAt.pairwise_iff (h : m.ForksAt bs d list) (hd : d.Balanced)
    (hm : m.memory.store.WellFormed) :
    bs.Pairwise (fun b b' => ∀ v, m.memory.store.Models v →
      ¬ (b.condition.holds v = true ∧ b'.condition.holds v = true)) ↔
    ∀ v, m.memory.store.Models v → d.listings (Cell.valueOf v list) ≤ 1 := by
  have hone (v : Valuation) (hv : m.memory.store.Models v) :
      bs.Pairwise (fun b b' => ¬ (b.condition.holds v = true ∧ b'.condition.holds v = true)) ↔
        d.listings (Cell.valueOf v list) ≤ 1 := by
    rw [pairwise_not_both_iff (p := fun b : Branch => b.condition.holds v), h.countP hd hm hv]
    omega
  rw [pairwise_iff_forall_sublist]
  constructor
  · intro hall v hv
    rw [← hone v hv, pairwise_iff_forall_sublist]
    exact fun hsub => hall hsub v hv
  · intro hall b b' hsub v hv
    have hpair := (hone v hv).2 (hall v hv)
    rw [pairwise_iff_forall_sublist] at hpair
    exact hpair hsub

end Machine

namespace Target

variable {s : Store}

/-! ## Runs -/

/-- On the way of an input stands a fork on bytes whose number is listed twice. -/
def MeetsTwice (t : Target) (x : Nat → BitVec 8) : Prop :=
  ∃ (m m' : Machine) (bs : List Branch) (d : Decision) (list : List Cell), t.Follows x m ∧
    step m = .ok (.fork bs) m' ∧ d.run (.cells list) m' = .ok (.fork bs) m' ∧
    2 ≤ d.listings (Cell.valueOf (m'.memory.store.valuation x) list)

/-- An input follows every path whose conditions it satisfies. -/
theorem Reaches.follows {p : Program} {t : Target} (ht : Fresh p t.start) (h : t.Reaches m)
    {x : Nat → BitVec 8} (hx : m.memory.store.accepts [] x) : t.Follows x m := by
  induction h with
  | refl => exact .refl
  | tail hm hleads ih =>
    have hbefore := hleads.extends.store.accepts (Reaches.sound ht hm).store hx
    exact (ih hbefore).tail ⟨hleads, hx⟩

/-- Inputs of both stores meet a number that is listed twice. -/
def Apart (t : Target) (s s' : Store) : Prop :=
  ∀ x, s.accepts [] x = true → s'.accepts [] x = true → t.MeetsTwice x

theorem Apart.symm {t : Target} {s' : Store} (h : t.Apart s s') : t.Apart s' s :=
  fun x hs hs' => h x hs' hs

/-- The conditions of the machines in the queue, and of those whose paths have ended. -/
def stores (q es : List Machine) : List Store :=
  q.map (·.memory.store) ++ es.map fun m => (step.final m).memory.store

/-- A store may be replaced by stores that accept fewer inputs. -/
theorem apart_replace {t : Target} {l ls : List Store} (h : (s :: l).Pairwise t.Apart)
    (hls : ls.Pairwise t.Apart)
    (hfewer : ∀ s' ∈ ls, ∀ x, s'.accepts [] x = true → s.accepts [] x = true) :
    (l ++ ls).Pairwise t.Apart := by
  rw [pairwise_cons] at h
  refine pairwise_append.2 ⟨h.2, hls, fun a ha b hb x hxa hxb => ?_⟩
  exact h.1 a ha x (hfewer b hb x hxb) hxa

section Runs

variable {p : Program} {t : Target} (hp : p.Balanced) (ht : Fresh p t.start)
include hp ht

theorem apart_leadsAll {ms : List Machine} (hm : t.Reaches m) (hms : m.LeadsAll ms) :
    (ms.map (·.memory.store)).Pairwise t.Apart := by
  cases hms with
  | advance hstep => simp
  | @fork bs m' hstep =>
    have hsound := hm.sound ht
    obtain ⟨d, list, hforks, hd⟩ := hsound.forksAt hp hstep
    have hfinal := hsound.extends (extends_step m)
    have hgrows := (extends_step m).store
    rw [final_of_ok hstep] at hfinal hgrows
    rw [map_map, pairwise_map, pairwise_iff_forall_sublist]
    intro b b' hsub x hx hx'
    simp only [Function.comp_apply, store_taken, Store.accepts_push] at hx hx'
    refine ⟨m, m', bs, d, list, hm.follows ht (hgrows.accepts hsound.store hx.1), hstep,
      hforks.run, ?_⟩
    have hcount := hforks.countP hd hfinal.store (hfinal.store.models hx.1)
    have htwo := hsub.countP_le (p := fun b : Branch =>
      b.condition.holds (m'.memory.store.valuation x))
    rw [hcount] at htwo
    simp only [countP_cons, hx.2, hx'.2, if_true, countP_nil] at htwo
    omega

theorem exists_apart (most : Option Int) :
    ∃ es : List Machine,
      List.Forall₂ (fun m r => t.Reaches m ∧ m.Ends t.inputLength r) es (t.explore most).reports ∧
      es.Pairwise fun m m' =>
        t.Apart (step.final m).memory.store (step.final m').memory.store := by
  let P (q es : List Machine) : Prop :=
    (∀ m ∈ q ++ es, t.Reaches m) ∧ (stores q es).Pairwise t.Apart
  have hstart : P [t.start] [] :=
    ⟨fun m hm => mem_singleton.1 hm ▸ .refl, by simp [stores]⟩
  have hfurther (m : Machine) (q es ms : List Machine) (h : P (m :: q) es) (hms : m.LeadsAll ms) :
      P (q ++ ms) es := by
    have hm : t.Reaches m := h.1 m (by simp)
    refine ⟨fun m' hm' => ?_, ?_⟩
    · simp only [mem_append] at hm'
      rcases hm' with (hm' | hm') | hm'
      · exact h.1 m' (by simp [hm'])
      · exact hm.tail (hms.leads hm')
      · exact h.1 m' (by simp [hm'])
    · have hnew : (stores q es ++ ms.map (·.memory.store)).Pairwise t.Apart := by
        refine apart_replace h.2 (apart_leadsAll hp ht hm hms) fun s hs x hx => ?_
        obtain ⟨m', hm', rfl⟩ := mem_map.1 hs
        exact (hms.leads hm').extends.store.accepts (hm.sound ht).store hx
      refine (List.Perm.pairwise_iff (fun h => h.symm) ?_).1 hnew
      simp only [stores, map_append, append_assoc]
      exact (perm_append_comm).append_left _
  have hends (m : Machine) (q es : List Machine) (r : Report) (h : P (m :: q) es)
      (_ : m.Ends t.inputLength r) : P q (es ++ [m]) := by
    refine ⟨fun m' hm' => h.1 m' ?_, ?_⟩
    · simp only [mem_append, mem_cons, not_mem_nil, or_false] at hm' ⊢
      tauto
    · have hm : t.Reaches m := h.1 m (by simp)
      have hnew : (stores q es ++ [(step.final m).memory.store]).Pairwise t.Apart := by
        refine apart_replace h.2 (by simp) fun s hs x hx => ?_
        rw [mem_singleton.1 hs] at hx
        exact (extends_step m).store.accepts (hm.sound ht).store hx
      simpa [stores] using hnew
  obtain ⟨q, es, ⟨hreaches, hapart⟩, hreports, -⟩ :=
    explore_induction most ht.steps hstart hfurther hends
  refine ⟨es, (forall₂_and_left ..).2 ⟨fun m hm => hreaches m (by simp [hm]), hreports⟩, ?_⟩
  exact pairwise_map.1 (pairwise_append.1 hapart).2.1

end Runs

/-- When outcomes exclude each other. At a fork of a loaded program no valuation of the parent's store
satisfies the conditions of two outcomes if and only if no number that the bytes can spell is listed
twice, after the values are cut to the width; an assertion lists none. Two reported paths share an
input only if the input comes to a number that is listed twice. -/
theorem outcomes_exclusive_iff {raw : Json} {strict : Bool} {program : Program} {name : String}
    {config : Config} {t : Target} (most : Option Int)
    (hload : Program.load raw strict = .ok program)
    (ht : ofMain program name config = .ok t ∨ ofSymbolic program name config = .ok t) :
    (∀ (m m' : Machine) (bs : List Branch) (f : Frame) (b : Block), t.Reaches m →
      Machine.step m = .ok (.fork bs) m' → m.stack.head? = some f → Machine.blockOf f = .ok b →
      (∃ (d : Decision) (list : List Cell), d.BelongsTo b.terminator ∧
        d.run (.cells list) m' = .ok (.fork bs) m') ∧
      ∀ (d : Decision) (list : List Cell), d.BelongsTo b.terminator →
        d.run (.cells list) m' = .ok (.fork bs) m' →
        (bs.Pairwise (fun b b' => ∀ v, m'.memory.store.Models v →
          ¬ (b.condition.holds v = true ∧ b'.condition.holds v = true)) ↔
        ∀ v, m'.memory.store.Models v → d.listings (Cell.valueOf v list) ≤ 1)) ∧
    ∃ es : List Machine,
      List.Forall₂ (fun m r => t.Reaches m ∧ m.Ends t.inputLength r) es (t.explore most).reports ∧
      es.Pairwise fun m m' => ∀ x : Nat → BitVec 8,
        (Machine.step.final m).memory.store.accepts [] x = true →
        (Machine.step.final m').memory.store.accepts [] x = true → t.MeetsTwice x := by
  have hp := Program.balanced_of_load hload
  have hfresh : Fresh program t.start := by
    rcases ht with ht | ht
    · exact fresh_ofMain ht
    · exact fresh_ofSymbolic ht
  refine ⟨fun m m' bs f b hreaches hstep hf hblock => ?_, exists_apart hp hfresh most⟩
  have hsound := hreaches.sound hfresh
  have hfinal := hsound.extends (extends_step m)
  rw [final_of_ok hstep] at hfinal
  constructor
  · obtain ⟨f', b', hf', hblock', -, d, list, hd, hrun⟩ := fork_cases hstep
    cases hf.symm.trans hf'
    cases hblock.symm.trans hblock'
    exact ⟨d, list, hd, hrun⟩
  · intro d list hd hrun
    obtain ⟨_, hname⟩ := hsound.functions f (mem_of_mem_head? hf)
    have hbalanced := (hp.find? hname).decision hblock hd
    exact (forksAt_of_run hrun).pairwise_iff hbalanced hfinal.store

/-- A switch that lists a number twice has outcomes that do not exclude each other. -/
theorem outcomes_overlap_sample :
    Program.load (Sample.raw [.int 1, .int 1]) true = .ok (Sample.program [1, 1]) ∧
    ofSymbolic (Sample.program [1, 1]) "f" Sample.config = .ok (Sample.target [1, 1]) ∧
    ∃ (m' : Machine) (bs : List Branch),
      Machine.step (Sample.target [1, 1]).start = .ok (.fork bs) m' ∧
      ¬ bs.Pairwise (fun b b' => ∀ v, m'.memory.store.Models v →
        ¬ (b.condition.holds v = true ∧ b'.condition.holds v = true)) := by
  have hload : Program.load (Sample.raw [.int 1, .int 1]) true = .ok (Sample.program [1, 1]) := by
    rfl
  have hstart := Sample.ofSymbolic_program [1, 1]
  refine ⟨hload, hstart, _, _, rfl, ?_⟩
  have hiff := ((outcomes_exclusive_iff none hload (.inr hstart)).1 _ _ _ _ _ .refl rfl rfl rfl).2
    (Sample.decision [1, 1]) [.symbol 0] ⟨.u8, rfl⟩ rfl
  rw [hiff]
  intro hlisted
  have hmodels : Sample.memory.store.Models fun _ => 1 := by
    constructor <;> simp [Sample.memory, Store.definitions, Store.placed]
  exact absurd (hlisted _ hmodels) (by decide)

end Target
end SymExec

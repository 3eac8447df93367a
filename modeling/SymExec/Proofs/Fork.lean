import SymExec.Proofs.Derive
import SymExec.Proofs.Query
import SymExec.Proofs.Effects
import Mathlib.Data.List.Forall2

/-!
# Forks

A machine forks where a switch or an assertion meets symbolic bytes (`Machine.fork_cases`). The
branches of such a decision cover all values of the bytes: under every valuation there is one whose
condition holds and that goes on as the decision does on the value that the bytes then have
(`Decision.exists_branch`). Two branches overlap only if a switch lists a value twice
(`Decision.eq_of_holds`).
-/
namespace SymExec

open Run List

variable {α β : Type} {r : StepResult}

theorem Run.except_mapM_eq_ok {ε : Type} {f : α → Except ε β} {xs : List α} {ys : List β} :
    xs.mapM f = .ok ys ↔ List.Forall₂ (fun x y => f x = .ok y) xs ys := by
  induction xs generalizing ys with
  | nil =>
    rw [mapM_nil, forall₂_nil_left_iff]
    constructor
    · rintro ⟨⟩
      rfl
    · rintro rfl
      rfl
  | cons x xs ih =>
    rw [mapM_cons, forall₂_cons_left_iff, bind_iff]
    constructor
    · rintro ⟨y, hy, h⟩
      obtain ⟨ys', hys, ⟨⟩⟩ := bind_iff.1 h
      exact ⟨y, ys', hy, ih.1 hys, rfl⟩
    · rintro ⟨y, ys', hy, hys, rfl⟩
      exact ⟨y, hy, bind_iff.2 ⟨ys', ih.2 hys, rfl⟩⟩

/-- Checks of a list may be made before the computation. -/
theorem Run.mapM_lift {σ : Type} (f : α → Except Failure β) (xs : List α) :
    xs.mapM (fun x => (liftM (f x) : Run σ β)) = liftM (xs.mapM f) := by
  induction xs with
  | nil => rfl
  | cons x xs ih =>
    rw [mapM_cons, mapM_cons, ih]
    funext s
    cases hx : f x with
    | error e => rfl
    | ok y => cases hxs : xs.mapM f <;> rfl

/-- How a machine goes on after a decision. -/
def Continuation.run : Continuation → Run Machine StepResult
  | goto block => do
    Machine.goto block
    return .advance
  | fail e => Run.fail e

/-- What a switch or an assertion makes of a value. -/
inductive Decision where
  | switch (kind : Kind) (values targets : List Int) (otherwise : Int)
  | assert (expected : Bool) (target : Int) (message : Json)

namespace Decision

variable {s : Store} {d : Decision} {list : List Cell} {v : Valuation} {n : Int} {c : Condition}

def kind : Decision → Kind
  | switch kind _ _ _ => kind
  | assert _ _ _ => .bool

def run : Decision → Scalar → Run Machine StepResult
  | switch kind values targets otherwise, v => Machine.switchOn v kind values targets otherwise
  | assert expected target message, v => Machine.assertOn v expected target message

def BelongsTo (d : Decision) : Terminator → Prop
  | .switch _ values targets otherwise => ∃ kind, d = switch kind values targets otherwise
  | .assert _ expected target message => d = assert expected target message
  | _ => False

/-- Every value of a switch has a target. -/
def Balanced : Decision → Prop
  | switch _ values targets _ => values.length = targets.length
  | assert _ _ _ => True

def isNumber (kind : Kind) (list : List Cell) (n : Int) : Condition :=
  .equal (.word kind.bits list) (.const (BitVec.ofInt kind.bits n))

/-- The condition that bytes spell a truth value other than false. -/
def isTrue (list : List Cell) : Condition := .differ (.word Kind.bool.bits list) (.const 0)

/-- The branches on symbolic bytes, whether or not an input takes them. -/
def branches (list : List Cell) : Decision → List Branch
  | switch kind values targets otherwise =>
    (values.zip targets).map (fun (n, target) =>
      { condition := isNumber kind list n, next := .goto target }) ++
    [{ condition := .all (values.map fun n => .not (isNumber kind list n)),
       next := .goto otherwise }]
  | assert expected target message =>
    let passing := if expected then isTrue list else .not (isTrue list)
    [{ condition := passing, next := .goto target },
     { condition := .not passing, next := .fail (.panic message) }]

/-! ## Decisions on symbolic bytes -/

theorem equals_cells_eq_ok {kind : Kind} (h : s.equals (.cells list) n kind = .ok c) :
    c = isNumber kind list n := by
  obtain ⟨t, ht, ⟨⟩⟩ := bind_iff.1 h
  rcases Store.term_eq_ok.1 ht with ⟨_, ⟨⟩, _⟩ | ⟨_, ⟨⟩, -, -, rfl⟩
  rfl

theorem truth_cells_eq_ok (h : s.truth (.cells list) = .ok c) :
    c = isTrue list ∧ list.length = 1 := by
  obtain ⟨t, ht, ⟨⟩⟩ := bind_iff.1 h
  rcases Store.term_eq_ok.1 ht with ⟨_, ⟨⟩, _⟩ | ⟨_, ⟨⟩, hlength, -, rfl⟩
  exact ⟨rfl, hlength⟩

theorem equals_mapM_eq_ok {kind : Kind} {values : List Int} {cs : List Condition}
    (h : values.mapM (fun n => s.equals (.cells list) n kind) = .ok cs) :
    cs = values.map (isNumber kind list) ∧ ∀ c ∈ cs, ∀ i ∈ c.symbols, i < s.size := by
  have hall := except_mapM_eq_ok.1 h
  clear h
  induction hall with
  | nil => simp
  | @cons n c values cs hc _ ih =>
    refine ⟨by rw [map_cons, ← ih.1, equals_cells_eq_ok hc], ?_⟩
    intro c' hmem
    rcases mem_cons.1 hmem with rfl | hmem
    · exact Store.symbols_equals_lt hc
    · exact ih.2 c' hmem

/-- A decision on symbolic bytes changes nothing and keeps the branches that some input takes. -/
theorem run_cells {m m' : Machine} (h : d.run (.cells list) m = .ok r m') :
    m' = m ∧ r = .fork (Machine.feasibleOnly m.memory.store (d.branches list)) ∧
      (∀ b ∈ d.branches list, ∀ i ∈ b.condition.symbols, i < m.memory.store.size) := by
  cases d with
  | switch kind values targets otherwise =>
    obtain ⟨_, _, ⟨⟩, h⟩ := bind_eq_ok.1 h
    obtain ⟨cs, m1, hcs, h⟩ := bind_eq_ok.1 h
    rw [mapM_lift] at hcs
    obtain ⟨hcs, rfl⟩ := of_eq_ok.1 hcs
    obtain ⟨rfl, hsymbols⟩ := equals_mapM_eq_ok hcs
    cases h
    refine ⟨rfl, ?_, ?_⟩
    · simp [branches, zip_map_left, map_map, Function.comp_def]
    · intro b hb i hi
      rcases mem_append.1 hb with hb | hb
      · obtain ⟨⟨n, target⟩, hmem, rfl⟩ := mem_map.1 hb
        exact hsymbols _ (mem_map_of_mem (of_mem_zip hmem).1) i hi
      · rw [mem_singleton.1 hb] at hi
        obtain ⟨c, hc, hi⟩ := Term.mem_symbols_all.1 hi
        obtain ⟨n, hn, rfl⟩ := mem_map.1 hc
        exact hsymbols _ (mem_map_of_mem hn) i hi
  | assert expected target message =>
    obtain ⟨_, _, ⟨⟩, h⟩ := bind_eq_ok.1 h
    obtain ⟨c, hc, h⟩ := ofBind_eq_ok.1 h
    have hsymbols := Store.symbols_truth_lt hc
    obtain ⟨rfl, -⟩ := truth_cells_eq_ok hc
    cases h
    refine ⟨rfl, rfl, ?_⟩
    intro b hb i hi
    apply hsymbols i
    cases expected <;> simp [branches] at hb <;> rcases hb with rfl | rfl <;> exact hi

/-! ## The value that the bytes have -/

/-- A number that a decision is meant for: truth values are zero and one. -/
def Admits : Decision → Nat → Prop
  | switch _ _ _ _, _ => True
  | assert _ _ _, n => n ≤ 1

def listings : Decision → Nat → Nat
  | switch kind values _ _, n => (values.map (BitVec.ofInt kind.bits)).count (BitVec.ofNat kind.bits n)
  | assert _ _ _, _ => 0

theorem holds_isNumber {kind : Kind} :
    (isNumber kind list n).holds v = true ↔
      BitVec.ofInt kind.bits n = BitVec.ofNat kind.bits (Cell.valueOf v list) := by
  simp only [isNumber, Term.holds_equal, Term.eval, beq_iff_eq]
  exact eq_comm

theorem holds_isTrue : (isTrue list).holds v = true ↔ BitVec.ofNat 8 (Cell.valueOf v list) ≠ 0 := by
  simp only [isTrue, Term.holds_differ, Term.eval, bne_iff_ne]
  rfl

theorem run_switch_bits (kind : Kind) (values targets : List Int) (otherwise : Int)
    (p : BitVec 128) :
    (switch kind values targets otherwise).run (.bits p) = (Continuation.goto
      ((((values.zip targets).find? fun (n, _) =>
        BitVec.ofInt kind.bits n == p.setWidth kind.bits).map Prod.snd).getD otherwise)).run := rfl

theorem run_assert_bool (expected : Bool) (target : Int) (message : Json) {p : BitVec 128}
    {b : Bool} (hp : p.toNat = b.toNat) :
    (assert expected target message).run (.bits p) =
      (if b = expected then Continuation.goto target else .fail (.panic message)).run := by
  have hbool : (Scalar.bits p).toBool = .ok b := by
    have hvalue : (Scalar.bits p).toU128 = .ok b.toNat := congrArg Except.ok hp
    unfold Scalar.toBool
    rw [hvalue]
    cases b <;> rfl
  unfold run Machine.assertOn
  simp only [hbool]
  cases b <;> cases expected <;> rfl

/-- Under every valuation of the bytes the condition of some branch holds, and this branch goes on
as the decision does on the number that the bytes then spell. -/
theorem exists_branch (hd : d.Balanced) (list : List Cell) (v : Valuation) :
    ∃ b ∈ d.branches list, b.condition.holds v = true ∧
      (d.Admits (Cell.valueOf v list) →
        d.run (.ofBits (Cell.valueOf v list) d.kind) = b.next.run) := by
  cases d with
  | switch kind values targets otherwise =>
    obtain ⟨p, hp, hlow⟩ := Scalar.ofBits_eq_bits (Cell.valueOf v list) kind
    rw [BitVec.ofInt_natCast] at hlow
    change ∃ b ∈ _, _ ∧ (True → run _ (.ofBits _ kind) = _)
    rw [hp, run_switch_bits, hlow]
    cases hfind : (values.zip targets).find? fun (n, _) =>
        BitVec.ofInt kind.bits n == BitVec.ofNat kind.bits (Cell.valueOf v list) with
    | some found =>
      obtain ⟨n, target⟩ := found
      have hmem := mem_of_find?_eq_some hfind
      have hequal : BitVec.ofInt kind.bits n = BitVec.ofNat kind.bits (Cell.valueOf v list) := by
        simpa using find?_some hfind
      exact ⟨_, mem_append_left _ (mem_map_of_mem hmem), holds_isNumber.2 hequal,
        fun _ => rfl⟩
    | none =>
      refine ⟨_, mem_append_right _ (mem_singleton_self _), ?_, fun _ => rfl⟩
      simp only [Term.holds_all, all_map, all_eq_true, Function.comp_apply,
        Term.holds_not, Bool.not_eq_true']
      intro n hn
      rw [← map_fst_zip (Nat.le_of_eq hd)] at hn
      obtain ⟨⟨_, target⟩, hmem, rfl⟩ := mem_map.1 hn
      have hdiffer := find?_eq_none.1 hfind _ hmem
      rw [← Bool.not_eq_true, holds_isNumber]
      simpa using hdiffer
  | assert expected target message =>
    obtain ⟨b, hb⟩ : ∃ b, (isTrue list).holds v = b := ⟨_, rfl⟩
    have hrun (hle : Cell.valueOf v list ≤ 1) :
        (assert expected target message).run (.ofBits (Cell.valueOf v list) .bool) =
          (if b = expected then Continuation.goto target else .fail (.panic message)).run := by
      apply run_assert_bool
      rw [← hb]
      rcases Nat.le_one_iff_eq_zero_or_eq_one.1 hle with h | h
      · have hfalse : (isTrue list).holds v = false := by
          rw [← Bool.not_eq_true, holds_isTrue, h]
          simp
        rw [hfalse, h]
        rfl
      · rw [holds_isTrue.2 (by rw [h]; decide), h]
        rfl
    by_cases hexpected : b = expected
    · refine ⟨_, mem_cons_self, ?_, fun h => ?_⟩
      · cases expected <;> simp [hb, hexpected]
      · rw [kind, hrun h, if_pos hexpected]
    · refine ⟨_, mem_cons_of_mem _ (mem_singleton_self _), ?_, fun h => ?_⟩
      · cases b <;> cases expected <;> simp_all
      · rw [kind, hrun h, if_neg hexpected]

/-- As many branches as list the number are taken, or one if none does. -/
theorem countP_branches (hd : d.Balanced) (list : List Cell) (v : Valuation) :
    (d.branches list).countP (·.condition.holds v) = max 1 (d.listings (Cell.valueOf v list)) := by
  cases d with
  | switch kind values targets otherwise =>
    have htaken : ((values.zip targets).map fun (n, target) =>
          ({ condition := isNumber kind list n, next := .goto target } : Branch)).countP
            (·.condition.holds v)
        = values.countP fun n => (isNumber kind list n).holds v := by
      conv_rhs => rw [← map_fst_zip (Nat.le_of_eq hd)]
      rw [countP_map, countP_map]
      rfl
    have hlisted : (switch kind values targets otherwise).listings (Cell.valueOf v list)
        = values.countP fun n => (isNumber kind list n).holds v := by
      rw [listings, count_eq_countP, countP_map]
      apply countP_congr
      intro n _
      rw [holds_isNumber, Function.comp_apply, beq_iff_eq]
    rw [branches, countP_append, htaken, hlisted, countP_singleton]
    simp only [Term.holds_all, all_map]
    split
    · rename_i hnone
      rw [countP_eq_zero.2 fun n hn => by simpa using all_eq_true.1 hnone n hn]
      rfl
    · rename_i hsome
      have hpos : 0 < values.countP fun n => (isNumber kind list n).holds v := by
        rw [countP_pos_iff]
        simpa using hsome
      omega
  | assert expected target message =>
    rw [branches, listings]
    cases hp : (if expected then isTrue list else (isTrue list).not : Condition).holds v <;>
      simp [hp]

/-- Two branches that hold under one valuation are one, unless a value is listed twice. -/
theorem eq_of_holds (hd : d.Balanced) (hlistings : d.listings (Cell.valueOf v list) ≤ 1) {b b' : Branch}
    (hb : b ∈ d.branches list) (hb' : b' ∈ d.branches list) (hholds : b.condition.holds v)
    (hholds' : b'.condition.holds v) : b = b' := by
  have hcount := countP_branches hd list v
  rw [Nat.max_eq_left hlistings, countP_eq_length_filter, length_eq_one_iff] at hcount
  obtain ⟨only, honly⟩ := hcount
  have hmem : ∀ b ∈ d.branches list, b.condition.holds v = true → b = only := by
    intro b hb hholds
    have htaken : b ∈ (d.branches list).filter (·.condition.holds v) :=
      mem_filter.2 ⟨hb, hholds⟩
    rw [honly] at htaken
    exact mem_singleton.1 htaken
  rw [hmem b hb hholds, hmem b' hb' hholds']

end Decision

/-! ## Steps -/

namespace Machine

variable {m m' : Machine} {t : Terminator} {bs : List Branch}

def counted (m : Machine) : Machine := { m with steps := m.steps + 1 }

theorem attempt_of_pending {e : EvalError} (h : m.pending = some e) :
    attempt m = .error (.error e) { m with pending := none } := by
  refine (bind_of_ok (getThe_apply m)).trans ?_
  simp only [h]
  rfl

theorem attempt_of_empty (h : m.pending = none) (hstack : m.stack = []) :
    attempt m = .ok .done m := by
  refine (bind_of_ok (getThe_apply m)).trans ?_
  simp only [h, hstack]
  rfl

theorem attempt_of_frame {f : Frame} {rest : List Frame} (h : m.pending = none)
    (hstack : m.stack = f :: rest) :
    attempt m = if m.limits.steps < ↑(m.steps + 1) then
        Run.failReporting [m.limits.steps] (.stepLimit m.limits.steps) m.counted
      else stepFrame f m.counted := by
  refine (bind_of_ok (getThe_apply m)).trans ?_
  simp only [h, hstack]
  have hcount : countStep m = (if m.limits.steps < ↑(m.steps + 1) then
      Run.failReporting [m.limits.steps] (.stepLimit m.limits.steps) else pure ()) m.counted := rfl
  split
  · rename_i hlimit
    rw [if_pos hlimit, failReporting_apply] at hcount
    rw [bind_of_error hcount, failReporting_apply]
  · rename_i hlimit
    rw [if_neg hlimit] at hcount
    exact bind_of_ok hcount

theorem step_of_pending {e : EvalError} (h : m.pending = some e) :
    step m = .error (Failure.written (.error e)) { m with pending := none } :=
  written_eq_error.2 ⟨_, attempt_of_pending h, rfl⟩

theorem step_of_empty (h : m.pending = none) (hstack : m.stack = []) : step m = .ok .done m :=
  written_eq_ok.2 (attempt_of_empty h hstack)

/-- The message of a limit is written when it is reached. -/
theorem step_of_frame {f : Frame} {rest : List Frame} (h : m.pending = none)
    (hstack : m.stack = f :: rest) :
    step m = if m.limits.steps < ↑(m.steps + 1) then
        Run.failReporting [m.limits.steps] (.stepLimit m.limits.steps) m.counted
      else Run.written (stepFrame f) m.counted := by
  have hattempt := attempt_of_frame h hstack
  split
  · rename_i hlimit
    rw [if_pos hlimit, failReporting_apply] at hattempt
    rw [failReporting_apply]
    refine written_eq_error.2 ⟨_, hattempt, ?_⟩
    split <;> rfl
  · rename_i hlimit
    rw [if_neg hlimit] at hattempt
    simp only [step, Run.written, hattempt]

/-- A step that succeeds ends a path without frames, or it steps the innermost frame. -/
theorem step_eq_ok (h : step m = .ok r m') :
    (m.stack = [] ∧ r = .done ∧ m' = m) ∨
      ∃ f rest, m.stack = f :: rest ∧ stepFrame f m.counted = .ok r m' := by
  cases hpending : m.pending with
  | some e =>
    rw [step_of_pending hpending] at h
    cases h
  | none =>
    cases hstack : m.stack with
    | nil =>
      rw [step_of_empty hpending hstack] at h
      cases h
      exact .inl ⟨rfl, rfl, rfl⟩
    | cons f rest =>
      rw [step_of_frame hpending hstack] at h
      split at h
      · rw [failReporting_apply] at h
        cases h
      · exact .inr ⟨f, rest, rfl, written_eq_ok.1 h⟩

def Straight (r : StepResult) : Prop := ∀ bs, r ≠ .fork bs

theorem straight_advance : Straight .advance := fun _ => nofun

theorem straight_done : Straight .done := fun _ => nofun

attribute [grind .] straight_advance straight_done

theorem advance_call (c : Call) : Yields (· = .advance) (call c) := by
  unfold call
  refine .bind fun found => ?_
  unfold callWith
  refine .guard fun _ => .bind fun m => ?_
  split
  · exact .bind fun _ => .pure rfl
  · refine .bind fun _ => ?_
    unfold afterCall
    grind

theorem straight_call (c : Call) : Yields Straight (call c) := fun m r m' h =>
  advance_call c m r m' h ▸ straight_advance

theorem straight_ret : Yields Straight ret := by
  unfold ret
  refine .bind fun f => .bind fun _ => .bind fun _ => ?_
  unfold resume
  refine .bind fun _ => .bind fun m => ?_
  grind

theorem straight_decision (d : Decision) {v : Scalar} (h : v.isSymbolic = false) :
    Yields Straight (d.run v) := by
  cases v with
  | cells list => cases h
  | bits | ptr | undef =>
    cases d with
    | switch kind values targets otherwise =>
      exact .bind fun p => .bind fun _ => .pure straight_advance
    | assert expected target message =>
      exact .bind fun b => .guard fun _ => .bind fun _ => .pure straight_advance

/-- The machine forks at a decision of the terminator it has come to, on symbolic bytes. -/
theorem fork_of_terminate (h : terminate t m = .ok (.fork bs) m') :
    ∃ (d : Decision) (list : List Cell), d.BelongsTo t ∧
      d.run (.cells list) m' = .ok (.fork bs) m' := by
  have hdecision {d : Decision} {v : Scalar} {m1 : Machine} (hd : d.BelongsTo t)
      (h : d.run v m1 = .ok (.fork bs) m') : ∃ (d : Decision) (list : List Cell), d.BelongsTo t ∧
        d.run (.cells list) m' = .ok (.fork bs) m' := by
    cases v with
    | cells list =>
      obtain ⟨rfl, -, -⟩ := Decision.run_cells h
      exact ⟨d, list, hd, h⟩
    | bits | ptr | undef => exact absurd rfl (straight_decision d rfl _ _ _ h bs)
  cases t with
  | switch discr values targets otherwise =>
    obtain ⟨arg, m1, -, h⟩ := bind_eq_ok.1 h
    obtain ⟨v, m2, -, h⟩ := bind_eq_ok.1 h
    obtain ⟨kind, m3, -, h⟩ := bind_eq_ok.1 h
    exact hdecision (d := .switch kind values targets otherwise) ⟨kind, rfl⟩ h
  | assert cond expected target message =>
    obtain ⟨arg, m1, -, h⟩ := bind_eq_ok.1 h
    obtain ⟨v, m2, -, h⟩ := bind_eq_ok.1 h
    exact hdecision (d := .assert expected target message) rfl h
  | call c => exact absurd rfl (straight_call c _ _ _ h bs)
  | ret => exact absurd rfl (straight_ret _ _ _ h bs)
  | goto target =>
    obtain ⟨_, m1, -, h⟩ := bind_eq_ok.1 h
    cases h
  | abort | unreachable => cases h

theorem ne_done_decision (d : Decision) (v : Scalar) : Yields (· ≠ .done) (d.run v) := by
  cases d with
  | switch kind values targets otherwise =>
    change Yields _ (switchOn v kind values targets otherwise)
    unfold switchOn
    split
    · exact .bind fun m => .bind fun equals => .pure (by simp)
    · exact .bind fun p => .bind fun _ => .pure (by simp)
  | assert expected target message =>
    change Yields _ (assertOn v expected target message)
    unfold assertOn
    split
    · exact .bind fun m => .bind fun holds => .pure (by simp)
    · exact .bind fun b => .guard fun _ => .bind fun _ => .pure (by simp)

/-- A path ends when the last frame returns. -/
theorem stack_of_terminate (h : terminate t m = .ok .done m') : m'.stack = [] := by
  cases t with
  | switch discr values targets otherwise =>
    obtain ⟨arg, m1, -, h⟩ := bind_eq_ok.1 h
    obtain ⟨v, m2, -, h⟩ := bind_eq_ok.1 h
    obtain ⟨kind, m3, -, h⟩ := bind_eq_ok.1 h
    exact absurd rfl (ne_done_decision (.switch kind values targets otherwise) v _ _ _ h)
  | assert cond expected target message =>
    obtain ⟨arg, m1, -, h⟩ := bind_eq_ok.1 h
    obtain ⟨v, m2, -, h⟩ := bind_eq_ok.1 h
    exact absurd rfl (ne_done_decision (.assert expected target message) v _ _ _ h)
  | call c => cases advance_call c _ _ _ h
  | ret =>
    change ret m = _ at h
    unfold ret at h
    obtain ⟨f, m1, -, h⟩ := bind_eq_ok.1 h
    obtain ⟨-, m2, -, h⟩ := bind_eq_ok.1 h
    obtain ⟨-, m3, -, h⟩ := bind_eq_ok.1 h
    rw [resume_eq] at h
    split at h
    · rename_i hempty
      cases h
      exact hempty
    · split at h <;> cases h
  | goto target =>
    obtain ⟨_, m1, -, h⟩ := bind_eq_ok.1 h
    cases h
  | abort | unreachable => cases h

theorem advance_statement (s : Statement) : Yields (· = .advance) (stepStatement s) := by
  cases s with
  | assign place rvalue => exact .bind fun _ => .bind fun _ => .pure rfl
  | nop => exact .bind fun _ => .pure rfl

/-- A step that does more than go on carries out a terminator, if there is a frame. -/
theorem terminate_of_step (h : step m = .ok r m') (hr : r ≠ .advance) :
    (m.stack = [] ∧ r = .done ∧ m' = m) ∨
      ∃ f b, f ∈ m.stack.head? ∧ blockOf f = .ok b ∧ b.statements[f.stmt]? = none ∧
        terminate b.terminator m.counted = .ok r m' := by
  obtain hempty | ⟨f, rest, hstack, h⟩ := step_eq_ok h
  · exact .inl hempty
  · obtain ⟨b, m1, hlift, -⟩ := bind_eq_ok.1 h
    have hblock : blockOf f = .ok b := (of_eq_ok.1 hlift).1
    cases hstmt : b.statements[f.stmt]? with
    | some s =>
      rw [stepFrame_of_statement hblock hstmt] at h
      exact absurd (advance_statement s _ _ _ h) hr
    | none =>
      rw [stepFrame_of_terminator hblock hstmt] at h
      exact .inr ⟨f, b, by simp [hstack], hblock, hstmt, h⟩

/-- When a path is done, no frame is left. -/
theorem stack_of_done (h : step m = .ok .done m') : m'.stack = [] := by
  obtain ⟨hstack, -, rfl⟩ | ⟨f, b, -, -, -, hterm⟩ := terminate_of_step h (by simp)
  · exact hstack
  · exact stack_of_terminate hterm

theorem fork_cases (h : step m = .ok (.fork bs) m') :
    ∃ f b, f ∈ m.stack.head? ∧ blockOf f = .ok b ∧ nextCall? f = none ∧
      ∃ (d : Decision) (list : List Cell), d.BelongsTo b.terminator ∧
        d.run (.cells list) m' = .ok (.fork bs) m' := by
  obtain ⟨-, hr, -⟩ | ⟨f, b, hf, hblock, hstmt, hterm⟩ := terminate_of_step h (by simp)
  · cases hr
  · obtain ⟨d, list, hd, hrun⟩ := fork_of_terminate hterm
    refine ⟨f, b, hf, hblock, ?_, d, list, hd, hrun⟩
    simp only [nextCall?, hblock, hstmt]
    cases hterm : b.terminator with
    | call c =>
      rw [hterm] at hd
      exact hd.elim
    | _ => rfl

end Machine
end SymExec

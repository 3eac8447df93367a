import SymExec.Proofs.Exploration

/-!
# Exploration that is stopped early

Exploration takes the same turns whether or not the number of reports is bounded: up to the last report
that is wanted, it has found the same. So the reports of a bounded exploration are the first ones of all
reports, and it was stopped if there are as many as are wanted (`Target.explore_take`).
-/
namespace SymExec

namespace Exploration

variable {length : Option Int} {most : Int} {x full : Exploration}

/-- The reports that are delivered if there are enough: at least one, as its receiver is asked only when
there is one. -/
def quota (most : Int) : Nat := (max most 1).toNat

theorem wanted_succ (most : Int) (n : Nat) :
    wanted (some most) (n + 1) = true ↔ n + 1 < quota most := by
  simp only [wanted, quota, decide_eq_true_eq]
  omega

/-- What was found under a bound, beside all that can be found. -/
structure Cuts (most : Int) (x full : Exploration) : Prop where
  reports : x.reports = full.reports.take (quota most)
  stopped : x.stats.stopped = true ↔ quota most ≤ full.reports.length
  same : full.reports.length < quota most → x = full

theorem Cuts.refl (hshort : x.reports.length < quota most) (hstopped : x.stats.stopped = false) :
    Cuts most x x where
  reports := (List.take_of_length_le hshort.le).symm
  stopped := by simp [hstopped, hshort]
  same _ := rfl

theorem Cuts.of_stopped (hreports : x.reports <+: full.reports)
    (hlength : x.reports.length = quota most) (hstopped : x.stats.stopped) : Cuts most x full where
  reports := by rw [← hlength, List.prefix_iff_eq_take.1 hreports]; simp
  stopped := by simp [hstopped, ← hlength, hreports.length_le]
  same hshort := absurd hreports.length_le (by omega)

theorem absorb_cases_deliver (x : Exploration) (e : Expansion) :
    (∀ most, x.absorb most e = x.absorb none e) ∧ (x.absorb none e).1.reports = x.reports ∧
      (x.absorb none e).1.stats.stopped = x.stats.stopped ∨
    ∃ z : Exploration, ∃ r, z.reports = x.reports ∧ z.fault = x.fault ∧
      ∀ most, x.absorb most e = (z.deliver most r, []) := by
  cases e with
  | further forked ms => cases forked <;> exact .inl ⟨fun _ => rfl, rfl, rfl⟩
  | fault cause => exact .inl ⟨fun _ => rfl, rfl, rfl⟩
  | returned r => exact .inr ⟨x.countStep, r, rfl, rfl, fun _ => rfl⟩
  | failed r => exact .inr ⟨x, r, rfl, rfl, fun _ => rfl⟩
  | deadEnd r => exact .inr ⟨x.countStep.countDeadEnd, r, rfl, rfl, fun _ => rfl⟩

theorem deliver_some {r : Report} (h : x.reports.length + 1 < quota most) :
    x.deliver (some most) r = x.deliver none r := by
  have hwanted := (wanted_succ most x.reports.length).2 h
  simp only [deliver, List.length_append, List.length_singleton, hwanted]
  rfl

theorem reports_loop (length most : Option Int) (rounds : Nat) (front back : List Machine)
    (x : Exploration) : x.reports <+: (loop length most rounds front back x).reports := by
  have habsorb (x y : Exploration) (e : Expansion) (ms : List Machine)
      (h : x.absorb most e = (y, ms)) : x.reports <+: y.reports := by
    rcases absorb_cases_deliver x e with ⟨hsame, hreports, -⟩ | ⟨z, r, hreports, -, hdeliver⟩
    · rw [hsame] at h
      rw [← hreports, h]
    · rw [hdeliver] at h
      cases h
      exact hreports ▸ List.prefix_append _ _
  fun_induction loop length most rounds front back x with
  | case1 back x m front rounds y ms h hhalted => exact habsorb x y _ ms h
  | case2 back x m front rounds y ms h hhalted ih => exact (habsorb x y _ ms h).trans ih
  | case3 back x | case4 back x rounds hempty => exact List.prefix_rfl
  | case5 back x rounds hempty ih =>
    simp only [List.unattach_reverse, List.unattach_attach] at ih
    exact ih

theorem loop_cons {most : Option Int} {m : Machine} {ms front back : List Machine} {y : Exploration}
    (rounds : Nat) (h : x.absorb most (m.expand length) = (y, ms)) :
    loop length most rounds (m :: front) back x
      = if y.halted then y else loop length most rounds front (ms.reverse ++ back) y := by
  rw [loop, h]

/-- The loop does the same under a bound until the last report that is wanted. -/
theorem loop_cuts (length : Option Int) (rounds : Nat) (front back : List Machine)
    (hshort : x.reports.length < quota most) (hgoes : x.halted = false) :
    Cuts most (loop length (some most) rounds front back x) (loop length none rounds front back x) := by
  have hstopped : x.stats.stopped = false := (Bool.or_eq_false_iff.1 hgoes).1
  have hfault : x.fault.isSome = false := (Bool.or_eq_false_iff.1 hgoes).2
  fun_induction loop length none rounds front back x with
  | case1 back x m front rounds y ms h hhalted =>
    rcases absorb_cases_deliver x (m.expand length) with
      ⟨hsame, hreports, hstops⟩ | ⟨z, r, -, hz, hdeliver⟩
    · rw [loop_cons rounds ((hsame _).trans h), if_pos hhalted]
      rw [h] at hreports hstops
      exact .refl (hreports ▸ hshort) (hstops.trans hstopped)
    · -- a report that is not the last one wanted ends nothing
      cases (hdeliver none).symm.trans h
      simp [halted, deliver, wanted, hz, hfault] at hhalted
  | case2 back x m front rounds y ms h hhalted ih =>
    have hgoes' : y.halted = false := by simpa using hhalted
    have hy := Bool.or_eq_false_iff.1 hgoes'
    rcases absorb_cases_deliver x (m.expand length) with
      ⟨hsame, hreports, -⟩ | ⟨z, r, hreports, -, hdeliver⟩
    · rw [loop_cons rounds ((hsame _).trans h), if_neg hhalted]
      rw [h] at hreports
      exact ih (hreports ▸ hshort) hgoes' hy.1 hy.2
    · cases (hdeliver none).symm.trans h
      have hlength (most : Option Int) : (z.deliver most r).reports.length = x.reports.length + 1 := by
        simp [deliver, hreports]
      rw [loop_cons rounds (hdeliver _)]
      by_cases hmore : x.reports.length + 1 < quota most
      · rw [deliver_some (hreports ▸ hmore), if_neg hhalted]
        exact ih (hlength none ▸ hmore) hgoes' hy.1 hy.2
      · have hlast : (z.deliver (some most) r).stats.stopped = true := by
          have hwanted := mt (wanted_succ most x.reports.length).1 hmore
          simpa [deliver, hreports] using hwanted
        rw [if_pos (by simp [halted, hlast])]
        refine .of_stopped ?_ ((hlength _).trans (by omega)) hlast
        exact reports_loop length none rounds front back (z.deliver none r)
  | case3 back x =>
    rw [loop]
    exact .refl hshort hstopped
  | case4 back x rounds hempty =>
    rw [loop, if_pos hempty]
    exact .refl hshort hstopped
  | case5 back x rounds hempty ih =>
    simp only [List.unattach_reverse, List.unattach_attach] at ih
    rw [loop, if_neg hempty]
    exact ih hshort hgoes hstopped hfault

end Exploration

/-- A bounded exploration delivers the first reports of all that there are, as many as are wanted and at
least one. It is stopped if there are so many, and otherwise finds all that can be found. -/
theorem Target.explore_take (t : Target) (most : Int) :
    (t.explore (some most)).reports = (t.explore none).reports.take (max most 1).toNat ∧
    ((t.explore (some most)).stats.stopped = true ↔ max most 1 ≤ (t.explore none).reports.length) ∧
    ((t.explore (some most)).stats.stopped = true ∨ t.explore (some most) = t.explore none) := by
  have hshort : ({} : Exploration).reports.length < Exploration.quota most := by
    rw [Exploration.quota]
    exact Int.pos_iff_toNat_pos.1 (by omega)
  obtain ⟨hreports, hstopped, hsame⟩ :=
    Exploration.loop_cuts t.inputLength (t.start.limits.steps.toNat + 1) [t.start] [] hshort rfl
  refine ⟨hreports, hstopped.trans Int.toNat_le, ?_⟩
  rcases Nat.lt_or_ge (t.explore none).reports.length (Exploration.quota most) with h | h
  · exact .inr (hsame h)
  · exact .inl (hstopped.2 h)

end SymExec

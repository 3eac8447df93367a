import SymExec.Proofs.Frames

/-!
# Programs whose references are resolved

Places name locals of their function, terminators name blocks of it, and a call gives as many
arguments as its callee takes (`Program.Resolved`). A strict load checks each function against its own
numbers of locals and blocks, and the calls against the whole program: so a loaded program is resolved,
whatever the order of its functions and however often a name is defined (`Program.resolved_of_load`).
-/
namespace SymExec

open Run

/-- A number is an index into a list of so many items. -/
def IsIndex (count : Nat) (i : Int) : Prop := 0 ≤ i ∧ i < count

/-! ## The locals that are named -/

def Projection.locals : Projection → List Int
  | index base => [base]
  | _ => []

def Place.locals (p : Place) : List Int := p.base :: p.projections.flatMap Projection.locals

def Operand.locals : Operand → List Int
  | copy place => place.locals
  | constant _ _ => []

def Rvalue.locals : Rvalue → List Int
  | use o | unary _ o | cast o _ => o.locals
  | binary _ lhs rhs | checked _ lhs rhs => lhs.locals ++ rhs.locals
  | ref p _ | len p => p.locals

def Statement.locals : Statement → List Int
  | assign place rvalue => place.locals ++ rvalue.locals
  | nop => []

def Call.locals (c : Call) : List Int :=
  c.args.flatMap Operand.locals ++ c.dest.toList.flatMap Place.locals

def Terminator.locals : Terminator → List Int
  | switch o _ _ _ | assert o _ _ _ => o.locals
  | call c => c.locals
  | goto _ | ret | abort | unreachable => []

/-! ## Resolved programs -/

/-- The callee is known, or its name may be that of an intrinsic, and it gets as many arguments as it
takes. -/
def Call.Resolved (p : Program) (c : Call) : Prop :=
  ∃ arity, Loader.calleeArity p c.callee = .ok arity ∧ ∀ n ∈ arity, (c.args.length : Int) = n

structure Block.Resolved (p : Program) (f : Function) (b : Block) : Prop where
  statements : ∀ s ∈ b.statements, ∀ i ∈ s.locals, IsIndex f.locals.length i
  locals : ∀ i ∈ b.terminator.locals, IsIndex f.locals.length i
  successors : ∀ i ∈ b.terminator.successors, IsIndex f.blocks.length i
  call : ∀ c, b.terminator = .call c → c.Resolved p

structure Function.Resolved (p : Program) (f : Function) : Prop where
  ne_nil : f.blocks ≠ []
  blocks : ∀ b ∈ f.blocks, b.Resolved p f

def Program.Resolved (p : Program) : Prop := ∀ f ∈ p.functions, f.Resolved p

/-! ## What a strict load checks -/

namespace Loader

section Strict

variable {scope : Scope} (hstrict : scope.strict) {raw : Json} {path : String}
include hstrict

theorem isIndex_local {n : Int} (h : local_ scope raw path = .ok n) : IsIndex scope.numLocals n := by
  obtain ⟨k, -, h⟩ := bind_iff.1 h
  split at h
  · cases h
  · rename_i hrange
    cases h
    simp only [hstrict, Bool.true_and, Bool.or_eq_true, decide_eq_true_eq, not_or] at hrange
    unfold IsIndex
    omega

theorem isIndex_target {n : Int} (h : target scope raw path = .ok n) :
    IsIndex scope.numBlocks n := by
  obtain ⟨k, -, h⟩ := bind_iff.1 h
  split at h
  · cases h
  · rename_i hrange
    cases h
    simp only [hstrict, Bool.true_and, Bool.or_eq_true, decide_eq_true_eq, not_or] at hrange
    unfold IsIndex
    omega

theorem locals_projection {q : Projection} (h : projection scope raw path = .ok q) :
    ∀ i ∈ q.locals, IsIndex scope.numLocals i := by
  unfold projection at h
  split at h
  · cases h
    simp [Projection.locals]
  · split at h
    · obtain ⟨_, -, ⟨⟩⟩ := bind_iff.1 h
      simp [Projection.locals]
    · obtain ⟨_, -, ⟨⟩⟩ := bind_iff.1 h
      simp [Projection.locals]
    · obtain ⟨n, hn, ⟨⟩⟩ := bind_iff.1 h
      simpa [Projection.locals] using isIndex_local hstrict hn
    · cases h

theorem locals_place {p : Place} (h : place scope raw path = .ok p) :
    ∀ i ∈ p.locals, IsIndex scope.numLocals i := by
  have hmake {base : Int} {projections : List Projection} (hbase : IsIndex scope.numLocals base)
      (hprojections : ∀ q ∈ projections, ∀ i ∈ q.locals, IsIndex scope.numLocals i) :
      ∀ i ∈ Place.locals ⟨base, projections⟩, IsIndex scope.numLocals i := by
    intro i hi
    rcases List.mem_cons.1 hi with rfl | hi
    · exact hbase
    · obtain ⟨q, hq, hi⟩ := List.mem_flatMap.1 hi
      exact hprojections q hq i hi
  unfold place at h
  split at h
  · obtain ⟨n, hn, ⟨⟩⟩ := bind_iff.1 h
    exact hmake (isIndex_local hstrict hn) (by simp)
  · split at h
    · cases h
    · obtain ⟨items, -, h⟩ := bind_iff.1 h
      obtain ⟨projections, hprojections, h⟩ := bind_iff.1 h
      obtain ⟨n, hn, ⟨⟩⟩ := bind_iff.1 h
      exact hmake (isIndex_local hstrict hn)
        (forall_of_each (fun _ _ _ hq => locals_projection hstrict hq) hprojections)

theorem locals_operand {o : Operand} (h : operand scope raw path = .ok o) :
    ∀ i ∈ o.locals, IsIndex scope.numLocals i := by
  unfold operand at h
  split at h
  · obtain ⟨p, hp, ⟨⟩⟩ := bind_iff.1 h
    exact locals_place hstrict hp
  · obtain ⟨_, -, ⟨⟩⟩ := bind_iff.1 h
    simp [Operand.locals]
  · cases h

theorem locals_rvalue {r : Rvalue} (h : rvalue scope raw path = .ok r) :
    ∀ i ∈ r.locals, IsIndex scope.numLocals i := by
  have hboth {lhs rhs : Operand} {raw raw' : Json} {path path' : String}
      (hlhs : operand scope raw path = .ok lhs) (hrhs : operand scope raw' path' = .ok rhs) :
      ∀ i ∈ lhs.locals ++ rhs.locals, IsIndex scope.numLocals i := by
    intro i hi
    rcases List.mem_append.1 hi with hi | hi
    · exact locals_operand hstrict hlhs i hi
    · exact locals_operand hstrict hrhs i hi
  unfold rvalue at h
  split at h
  · dsimp only at h
    split at h
    · obtain ⟨o, ho, ⟨⟩⟩ := bind_iff.1 h
      exact locals_operand hstrict ho
    split at h
    · obtain ⟨op, -, h⟩ := bind_iff.1 h
      obtain ⟨lhs, hlhs, h⟩ := bind_iff.1 h
      obtain ⟨rhs, hrhs, ⟨⟩⟩ := bind_iff.1 h
      exact hboth hlhs hrhs
    split at h
    · obtain ⟨op, -, h⟩ := bind_iff.1 h
      obtain ⟨lhs, hlhs, h⟩ := bind_iff.1 h
      obtain ⟨rhs, hrhs, ⟨⟩⟩ := bind_iff.1 h
      exact hboth hlhs hrhs
    split at h
    · obtain ⟨op, -, h⟩ := bind_iff.1 h
      obtain ⟨o, ho, ⟨⟩⟩ := bind_iff.1 h
      exact locals_operand hstrict ho
    split at h
    · obtain ⟨o, ho, h⟩ := bind_iff.1 h
      obtain ⟨_, -, ⟨⟩⟩ := bind_iff.1 h
      exact locals_operand hstrict ho
    split at h
    · obtain ⟨p, hp, ⟨⟩⟩ := bind_iff.1 h
      exact locals_place hstrict hp
    split at h
    · obtain ⟨p, hp, ⟨⟩⟩ := bind_iff.1 h
      exact locals_place hstrict hp
    · cases h
  · cases h

theorem locals_statement {s : Statement} (h : statement scope raw path = .ok s) :
    ∀ i ∈ s.locals, IsIndex scope.numLocals i := by
  unfold statement at h
  split at h
  · cases h
    simp [Statement.locals]
  · split at h
    · obtain ⟨p, hp, h⟩ := bind_iff.1 h
      obtain ⟨r, hr, ⟨⟩⟩ := bind_iff.1 h
      intro i hi
      rcases List.mem_append.1 hi with hi | hi
      · exact locals_place hstrict hp i hi
      · exact locals_rvalue hstrict hr i hi
    · cases h

theorem names_terminator {t : Terminator} (h : terminator scope raw path = .ok t) :
    (∀ i ∈ t.locals, IsIndex scope.numLocals i) ∧
      ∀ i ∈ t.successors, IsIndex scope.numBlocks i := by
  rcases terminator_eq_ok h with
    rfl | rfl | rfl | ⟨n, _, _, rfl, hn⟩ | ⟨discr, h⟩ | ⟨cond, h⟩ | ⟨callee, -, h⟩
  · simp [Terminator.locals, Terminator.successors]
  · simp [Terminator.locals, Terminator.successors]
  · simp [Terminator.locals, Terminator.successors]
  · simpa [Terminator.locals, Terminator.successors] using isIndex_target hstrict hn
  · obtain ⟨o, values, targets, otherwise, rfl, -, ⟨_, _, ho⟩, ⟨_, _, htargets⟩, _, _, hotherwise⟩ :=
      switch_eq_ok h
    refine ⟨locals_operand hstrict ho, fun i hi => ?_⟩
    rcases List.mem_append.1 hi with hi | hi
    · exact forall_of_each (fun _ _ _ hn => isIndex_target hstrict hn) htargets i hi
    · rw [List.mem_singleton.1 hi]
      exact isIndex_target hstrict hotherwise
  · obtain ⟨o, expected, next, message, rfl, ⟨_, _, ho⟩, _, _, hnext⟩ := assertion_eq_ok h
    exact ⟨locals_operand hstrict ho,
      by simpa [Terminator.successors] using isIndex_target hstrict hnext⟩
  · obtain ⟨c, rfl, -, ⟨_, _, -, hargs⟩, hdest, htarget⟩ := call_eq_ok h
    refine ⟨fun i hi => ?_, fun i hi => ?_⟩
    · rcases List.mem_append.1 hi with hi | hi
      · obtain ⟨o, ho, hi⟩ := List.mem_flatMap.1 hi
        exact forall_of_each (fun _ _ _ ho => locals_operand hstrict ho) hargs o ho i hi
      · obtain ⟨p, hp, hi⟩ := List.mem_flatMap.1 hi
        obtain ⟨_, _, hread⟩ := hdest p (by simpa using hp)
        exact locals_place hstrict hread i hi
    · obtain ⟨_, _, hread⟩ := htarget i (by simpa [Terminator.successors] using hi)
      exact isIndex_target hstrict hread

end Strict

/-- The number of arguments is the one that the callee takes, if it is known. -/
theorem resolved_of_checkCall {p : Program} {c : Call} {path : String}
    (h : checkCall p c path = .ok ()) : c.Resolved p := by
  obtain ⟨arity, harity, h⟩ := bind_iff.1 h
  refine ⟨arity, harity, fun n hn => ?_⟩
  cases hn
  dsimp only at h
  split at h
  · cases h
  · rename_i hsame
    exact Decidable.not_not.1 hsame

theorem resolved_of_checkCalls {p : Program} {f : Function} {path : String}
    (h : checkCalls p f path = .ok ()) {b : Block} (hb : b ∈ f.blocks) {c : Call}
    (hc : b.terminator = .call c) : c.Resolved p := by
  obtain ⟨k, hk⟩ := List.getElem?_of_mem hb
  have hcheck := forM_eq_ok h (b, k) (List.mk_mem_zipIdx_iff_getElem?.2 hk)
  dsimp only at hcheck
  rw [hc] at hcheck
  exact resolved_of_checkCall hcheck

end Loader

theorem Program.resolved_of_load {raw : Json} {p : Program} (h : load raw true = .ok p) :
    p.Resolved := by
  intro f hf
  obtain ⟨-, ⟨structs, _, _, hread⟩, hcalls⟩ := load_eq_ok h f hf
  obtain ⟨_, hcalls⟩ := hcalls rfl
  obtain ⟨-, hne, _, -, hblocks⟩ := Loader.function_eq_ok hread
  refine ⟨hne, fun b hb => ?_⟩
  have hnames : (∀ s ∈ b.statements, ∀ i ∈ s.locals, IsIndex f.locals.length i) ∧
      (∀ i ∈ b.terminator.locals, IsIndex f.locals.length i) ∧
      ∀ i ∈ b.terminator.successors, IsIndex f.blocks.length i := by
    revert b
    refine Loader.forall_of_each (fun _ _ b hb => ?_) hblocks
    obtain ⟨⟨_, _, hstatements⟩, _, _, hterm⟩ := Loader.block_eq_ok hb
    exact ⟨Loader.forall_of_each (fun _ _ _ hs => Loader.locals_statement rfl hs) hstatements,
      Loader.names_terminator rfl hterm⟩
  exact ⟨hnames.1, hnames.2.1, hnames.2.2, fun c hc => Loader.resolved_of_checkCalls hcalls hb hc⟩

end SymExec

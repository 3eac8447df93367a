import SymExec.Proofs.Exploration
import SymExec.Proofs.Raises
import SymExec.Proofs.Resolved

/-!
# No lookup fails

In a resolved program every frame stands at a block of its function and has all of its locals, and a
frame that is called returns to a block of its caller (`Machine.Resolved`): a move of the frames keeps
this (`Resolved.moves`). So no step looks for a block or a local that is not there, and no callee gets
a wrong number of arguments (`Target.lookups_succeed`).
-/
namespace SymExec

open Run List

def EvalError.IsOther (e : EvalError) : Prop := e.isLookup = false

theorem EvalError.admits_isOther : Admits EvalError.IsOther := by
  intro e he
  cases e <;> first | rfl | cases he

namespace Machine

/-! ## Frames of a resolved program -/

/-- A frame stands at a block of its function and has all of its locals. -/
structure FrameResolved (p : Program) (f : Frame) : Prop where
  function : f.function.Resolved p
  locals : f.locals.length = f.function.locals.length
  block : IsIndex f.function.blocks.length f.block

def ReturnsTo (f g : Frame) : Prop :=
  ∀ target ∈ f.returnTarget, IsIndex g.function.blocks.length target

/-- The frames belong to functions of a resolved program, and the only error to report is a panic. -/
structure Resolved (p : Program) (m : Machine) : Prop where
  program : m.program = p
  frames : ∀ f ∈ m.stack, FrameResolved p f
  returns : m.stack.IsChain ReturnsTo
  pending : ∀ e ∈ m.pending, ∃ message, e = .panic message

variable {p : Program} {m m' : Machine} {f : Frame} {rest : List Frame}

theorem FrameResolved.goto (hf : FrameResolved p f) {block : Int} (stmt : Nat)
    (hblock : IsIndex f.function.blocks.length block) :
    FrameResolved p { f with block := block, stmt := stmt } :=
  ⟨hf.function, hf.locals, hblock⟩

theorem returns_goto (h : (f :: rest).IsChain ReturnsTo) (block : Int) (stmt : Nat) :
    ({ f with block := block, stmt := stmt } :: rest).IsChain ReturnsTo := by
  cases rest with
  | nil => exact .singleton _
  | cons g below =>
    obtain ⟨hto, hbelow⟩ := isChain_cons_cons.1 h
    exact isChain_cons_cons.2 ⟨hto, hbelow⟩

theorem FrameResolved.blockOf (hf : FrameResolved p f) : ∃ b, blockOf f = .ok b := by
  obtain ⟨hnonneg, hless⟩ := hf.block
  have hindex : f.block.toNat < f.function.blocks.length := by omega
  refine ⟨f.function.blocks[f.block.toNat], ?_⟩
  unfold Machine.blockOf Section.item?
  rw [if_neg (by omega), if_pos hnonneg, getElem?_eq_getElem hindex]

theorem FrameResolved.resolved {b : Block} (hf : FrameResolved p f) (hb : Machine.blockOf f = .ok b) :
    b.Resolved p f.function :=
  hf.function.blocks b (mem_of_blockOf hb)

theorem Resolved.moves (hp : p.Resolved) (hstack : ∀ g ∈ f :: rest, FrameResolved p g)
    (hreturns : (f :: rest).IsChain ReturnsTo) {stack : List Frame} (h : Moves p f rest stack) :
    (∀ g ∈ stack, FrameResolved p g) ∧ stack.IsChain ReturnsTo := by
  have hf := hstack f mem_cons_self
  have hrest : ∀ g ∈ rest, FrameResolved p g := fun g hg => hstack g (mem_cons_of_mem f hg)
  cases h with
  | next hblock hstmt =>
    exact ⟨forall_mem_cons.2 ⟨hf.goto _ hf.block, hrest⟩, returns_goto hreturns _ _⟩
  | @jump b target hblock htarget =>
    have hblock := (hf.resolved hblock).successors target htarget
    exact ⟨forall_mem_cons.2 ⟨hf.goto 0 hblock, hrest⟩, returns_goto hreturns _ _⟩
  | @enter b c function locals returnPtr hblock hcall hfunction hlocals =>
    have hcallee := hp function (mem_of_find?_eq_some hfunction)
    have hfirst : IsIndex function.blocks.length 0 :=
      ⟨Int.le_refl 0, by have := length_pos_iff.2 hcallee.ne_nil; omega⟩
    refine ⟨forall_mem_cons.2 ⟨⟨hcallee, hlocals, hfirst⟩, hstack⟩, ?_⟩
    refine isChain_cons_cons.2 ⟨fun target htarget => ?_, hreturns⟩
    refine (hf.resolved hblock).successors target ?_
    rw [hcall]
    simpa [Terminator.successors] using htarget
  | @leave g below target hbelow htarget =>
    subst hbelow
    obtain ⟨hto, hbelow⟩ := isChain_cons_cons.1 hreturns
    obtain ⟨hg, hothers⟩ := forall_mem_cons.1 hrest
    exact ⟨forall_mem_cons.2 ⟨hg.goto 0 (hto target htarget), hothers⟩,
      returns_goto hbelow _ _⟩

theorem Resolved.leads (hp : p.Resolved) (hm : m.Resolved p) (h : m.Leads m') : m'.Resolved p := by
  have hprogram : m'.program = p := h.extends.program.trans hm.program
  obtain ⟨f, rest, hstack, ⟨hmoves, hpending⟩ | ⟨hsame, _, message, -, -, hpending⟩⟩ := h.moves
  · rw [hm.program] at hmoves
    obtain ⟨hframes, hreturns⟩ :=
      Resolved.moves hp (hstack ▸ hm.frames) (hstack ▸ hm.returns) hmoves
    exact ⟨hprogram, hframes, hreturns, by simp [hpending]⟩
  · refine ⟨hprogram, hsame ▸ hm.frames, hsame ▸ hm.returns, ?_⟩
    rw [hpending]
    simp

/-! ## Errors of a step -/

/-- With such frames, all errors of the path that a computation raises are others. -/
def Clean {α : Type} (stack : List Frame) (act : Run Machine α) : Prop :=
  ∀ m c m', m.stack = stack → act m = .error c m' → Within EvalError.IsOther c

namespace Clean

variable {α β : Type} {stack : List Frame}

theorem of_raises {act : Run Machine α} (h : Raises EvalError.IsOther act) : Clean stack act :=
  fun m c m' _ => h m c m'

theorem bind {act : Run Machine α} {f : α → Run Machine β} (h : Clean stack act)
    (hstays : Keeps Stays act) (hf : ∀ a, Clean stack (f a)) : Clean stack (act >>= f) := by
  intro m c m' hstack herror
  cases hact : act m with
  | ok a m1 =>
    rw [bind_of_ok hact] at herror
    exact hf a m1 c m' ((Stays.of_ok hstays hact).stack.trans hstack) herror
  | error e m1 =>
    rw [bind_of_error hact] at herror
    cases herror
    exact h m _ _ hstack hact

theorem pure (a : α) : Clean stack (pure a : Run Machine α) := of_raises (.pure a)

theorem mapM {f : α → Run Machine β} {xs : List α} (hf : ∀ x ∈ xs, Clean stack (f x))
    (hstays : ∀ x, Keeps Stays (f x)) : Clean stack (xs.mapM f) := by
  induction xs with
  | nil => exact pure []
  | cons x xs ih =>
    rw [mapM_cons]
    refine bind (hf x mem_cons_self) (hstays x) fun y => bind ?_ ?_ fun ys => pure _
    · exact ih fun z hz => hf z (mem_cons_of_mem x hz)
    · exact stays_composes.mapM fun z _ => hstays z

end Clean

section Lookups

variable {i : Int} {α : Type}
variable {c : Call} {args : List Arg}

section

variable (hf : FrameResolved p f)
include hf

theorem localAt_of_isIndex (hi : IsIndex f.function.locals.length i) :
    ∃ x, localAt f i = .ok x := by
  obtain ⟨hnonneg, hless⟩ := hi
  have hty : i.toNat < f.function.locals.length := by omega
  have hptr : i.toNat < f.locals.length := by rw [hf.locals]; exact hty
  refine ⟨(f.locals[i.toNat], f.function.locals[i.toNat]), ?_⟩
  unfold localAt Section.item?
  simp only [if_pos hnonneg, getElem?_eq_getElem hptr, getElem?_eq_getElem hty]

theorem fails_localAt_of_isIndex (hi : IsIndex f.function.locals.length i) :
    Fails EvalError.IsOther (localAt f i) := by
  obtain ⟨x, hx⟩ := localAt_of_isIndex hf hi
  rw [hx]
  exact .ok x

theorem raises_project_of_isIndex (ref : PlaceRef) {q : Projection}
    (hq : ∀ i ∈ q.locals, IsIndex f.function.locals.length i) :
    Raises EvalError.IsOther (project f ref q) := by
  have hE := EvalError.admits_isOther
  cases q with
  | deref => exact raises_deref hE ref
  | field i => exact .lift (fails_fieldOf hE ref i)
  | constIndex i => exact .liftError (fails_element hE ref i)
  | index base =>
    have hlocal := fails_localAt_of_isIndex hf (hq base (mem_singleton_self base))
    refine .bind (.liftError hlocal) fun found => .bind (raises_readScalar hE _ _) fun v => ?_
    split
    · exact .common hE rfl
    · exact .bind (.liftError (Scalar.fails_toU64 hE.bare _)) fun n => .liftError (fails_element hE _ _)

theorem raises_projections {qs : List Projection}
    (hqs : ∀ q ∈ qs, ∀ i ∈ q.locals, IsIndex f.function.locals.length i) (ref : PlaceRef) :
    Raises EvalError.IsOther (qs.foldlM (project f) ref) := by
  induction qs generalizing ref with
  | nil => exact .pure ref
  | cons q qs ih =>
    rw [foldlM_cons]
    refine .bind (raises_project_of_isIndex hf ref (hqs q mem_cons_self)) fun ref' => ?_
    exact ih (fun q' hq' => hqs q' (mem_cons_of_mem q hq')) ref'

theorem clean_evalPlace {place : Place} (h : ∀ i ∈ place.locals, IsIndex f.function.locals.length i) :
    Clean (f :: rest) (evalPlace place) := by
  intro m c m' hstack herror
  unfold evalPlace at herror
  rw [bind_of_ok (frame_of_stack hstack)] at herror
  have hlocal := fails_localAt_of_isIndex hf (h place.base mem_cons_self)
  have hprojections : ∀ q ∈ place.projections, ∀ i ∈ q.locals,
      IsIndex f.function.locals.length i := fun q hq i hi =>
    h i (mem_cons_of_mem _ (mem_flatMap.2 ⟨q, hq, hi⟩))
  exact Raises.bind (.liftError hlocal) (fun found => raises_projections hf hprojections _) m c m' herror

theorem clean_evalOperand {operand : Operand}
    (h : ∀ i ∈ operand.locals, IsIndex f.function.locals.length i) :
    Clean (f :: rest) (evalOperand operand) := by
  have hE := EvalError.admits_isOther
  cases operand with
  | constant value ty =>
    exact .of_raises (.bind (raises_evalConstant hE value ty) fun _ => .pure _)
  | copy place =>
    refine .bind (clean_evalPlace hf h) ((stays_stackless (P := False)).evalPlace place) fun ref => ?_
    refine .of_raises (.bind (.liftError (Ty.fails_isFat hE _)) fun fat => ?_)
    split
    · exact .bind (raises_readPair hE _ _) fun _ => .pure _
    · refine .bind (.liftError (Ty.fails_isPrimitive hE _)) fun primitive => ?_
      split
      · exact .bind (raises_readScalar hE _ _) fun _ => .pure _
      · exact .pure _

/-! ## Statements -/

theorem clean_assign {place : Place} {rvalue : Rvalue}
    (hplace : ∀ i ∈ place.locals, IsIndex f.function.locals.length i)
    (hrvalue : ∀ i ∈ rvalue.locals, IsIndex f.function.locals.length i) :
    Clean (f :: rest) (assign place rvalue) := by
  have hE := EvalError.admits_isOther
  have hS := stays_stackless (P := False)
  refine .bind (clean_evalPlace hf hplace) (hS.evalPlace place) fun dest => ?_
  -- whatever is done with operands that were found looks for no local
  cases rvalue with
  | use operand =>
    refine .bind (clean_evalOperand hf hrvalue) (hS.evalOperand operand) fun arg => .of_raises ?_
    exact raises_writeValue hE _ _ _ _
  | binary op lhs rhs | checked op lhs rhs =>
    have hlhs := fun i hi => hrvalue i (mem_append_left _ hi)
    have hrhs := fun i hi => hrvalue i (mem_append_right _ hi)
    refine .bind (clean_evalOperand hf hlhs) (hS.evalOperand lhs) fun lhs => ?_
    refine .bind (clean_evalOperand hf hrhs) (hS.evalOperand rhs) fun rhs => .of_raises ?_
    grind
  | unary op operand =>
    refine .bind (clean_evalOperand hf hrvalue) (hS.evalOperand operand) fun arg => .of_raises ?_
    grind
  | cast operand ty =>
    refine .bind (clean_evalOperand hf hrvalue) (hS.evalOperand operand) fun arg => .of_raises ?_
    exact raises_castTo hE dest arg
  | ref place mutable =>
    refine .bind (clean_evalPlace hf hrvalue) (hS.evalPlace place) fun ref => .of_raises ?_
    grind
  | len place =>
    refine .bind (clean_evalPlace hf hrvalue) (hS.evalPlace place) fun ref => .of_raises ?_
    split
    · exact raises_writeScalar hE _ _ _ _
    · exact raises_writeScalar hE _ _ _ _
    · exact raises_writeScalar hE _ _ _ _
    · exact .common hE rfl

end

/-! ## Calls -/

theorem raises_pushFrame_of_length {function : Function} (h : (args.length : Int) = function.argCount)
    (returnPtr : Option Pointer) (returnTarget : Option Int) :
    Raises EvalError.IsOther (pushFrame function args returnPtr returnTarget) := by
  have hE := EvalError.admits_isOther
  unfold pushFrame allocateLocals passArgs
  refine .bind .get fun m => .guard (.failReporting hE _ rfl) ?_
  rw [if_neg (by simpa using h)]
  grind

theorem raises_callBuiltin_of_length {b : Builtin} (h : ∀ n ∈ b.arity?, args.length = n)
    (dest : Option PlaceRef) (typeArgs : List Ty) :
    Raises EvalError.IsOther (callBuiltin b args dest typeArgs) := by
  have hperform := raises_performBuiltin EvalError.admits_isOther b args dest typeArgs
  unfold callBuiltin
  cases harity : b.arity? with
  | none => exact hperform
  | some expected =>
    dsimp only
    rw [if_neg (by simpa using h expected harity)]
    exact hperform

theorem raises_callIntrinsic_of_length {c : IntrinsicCall} (h : c.args.length = c.intrinsic.arity) :
    Raises EvalError.IsOther (callIntrinsic c) := by
  unfold callIntrinsic
  rw [if_neg (by simpa using h)]
  exact raises_perform EvalError.admits_isOther c

/-- A builtin or an intrinsic gets as many arguments as it takes. -/
theorem raises_callOther_of_resolved (hc : c.Resolved p) (hnone : p.find? c.callee = none)
    (hargs : args.length = c.args.length) (dest : Option PlaceRef) :
    Raises EvalError.IsOther (callOther c args dest) := by
  obtain ⟨arity, harity, hlength⟩ := hc
  unfold Loader.calleeArity at harity
  rw [hnone] at harity
  unfold callOther
  cases hbuiltin : Builtin.ofName? c.callee with
  | some b =>
    rw [hbuiltin] at harity
    cases harity
    refine raises_callBuiltin_of_length (fun n hn => ?_) dest c.typeArgs
    have := hlength n (by simpa using hn)
    omega
  | none =>
    rw [hbuiltin] at harity
    cases hcallee : c.callee with
    | str name =>
      rw [hcallee] at harity
      cases harity
      dsimp only
      cases hintrinsic : Intrinsic.ofName? name with
      | none => exact .common EvalError.admits_isOther rfl
      | some intrinsic =>
        refine raises_callIntrinsic_of_length (c := ⟨intrinsic, name, args, dest, c.typeArgs⟩) ?_
        have := hlength intrinsic.arity (by simp [hintrinsic])
        dsimp only
        omega
    | _ => exact .throw .crash

theorem length_evalCall {found : List Arg × Option PlaceRef} (h : evalCall c m = .ok found m') :
    found.1.length = c.args.length := by
  obtain ⟨args, m1, hargs, h⟩ := bind_eq_ok.1 h
  obtain ⟨dest, m2, -, ⟨⟩⟩ := bind_eq_ok.1 h
  exact length_of_mapM hargs

theorem clean_evalCall (hf : FrameResolved p f)
    (hc : ∀ i ∈ c.locals, IsIndex f.function.locals.length i) : Clean (f :: rest) (evalCall c) := by
  have hS := stays_stackless (P := False)
  refine .bind (.mapM (fun o ho => clean_evalOperand hf fun i hi => hc i ?_) hS.evalOperand)
    (hS.mapM fun o _ => hS.evalOperand o) fun args => ?_
  · exact mem_append_left _ (mem_flatMap.2 ⟨o, ho, hi⟩)
  · refine .bind ?_ (hS.mapOption hS.evalPlace c.dest) fun dest => .pure _
    cases hdest : c.dest with
    | none => exact .pure none
    | some place =>
      refine .bind (clean_evalPlace hf fun i hi => hc i ?_) (hS.evalPlace place) fun _ => .pure _
      exact mem_append_right _ (mem_flatMap.2 ⟨place, by simp [hdest], hi⟩)

theorem clean_call (hf : FrameResolved p f)
    (hlocals : ∀ i ∈ c.locals, IsIndex f.function.locals.length i) (hc : c.Resolved p)
    (hprogram : m.program = p) (hstack : m.stack = f :: rest) {e : Failure} (h : call c m = .error e m') :
    Within EvalError.IsOther e := by
  have hE := EvalError.admits_isOther
  have hS := stays_stackless (P := False)
  unfold call at h
  cases hfound : evalCall c m with
  | error e' m1 =>
    rw [bind_of_error hfound] at h
    cases h
    exact clean_evalCall hf hlocals m _ _ hstack hfound
  | ok found m1 =>
    have hlength := length_evalCall hfound
    have hprogram1 := (Stays.of_ok (hS.evalCall c) hfound).program.trans hprogram
    rw [bind_of_ok hfound] at h
    rw [callWith_eq, hprogram1] at h
    split at h
    · cases h
      exact .crash
    · cases hfunction : p.find? c.callee with
      | some function =>
        rw [hfunction] at h
        obtain ⟨arity, harity, hgiven⟩ := hc
        unfold Loader.calleeArity at harity
        rw [hfunction] at harity
        cases harity
        have hargs : (found.1.length : Int) = function.argCount := by
          rw [hlength]
          exact hgiven _ rfl
        exact Raises.bind (raises_pushFrame_of_length hargs _ _) (fun _ => .pure _) m1 e m' h
      | none =>
        rw [hfunction] at h
        have hother := raises_callOther_of_resolved hc hfunction hlength found.2
        exact hother.bind (fun _ => raises_afterCall hE c) m1 e m' h

/-! ## Steps -/

theorem clean_terminate (hm : m.Resolved p) (hstack : m.stack = f :: rest) {b : Block}
    (hb : b.Resolved p f.function) {e : Failure} (h : terminate b.terminator m = .error e m') :
    Within EvalError.IsOther e := by
  have hE := EvalError.admits_isOther
  have hS := stays_stackless (P := False)
  have hf := hm.frames f (by simp [hstack])
  have hlocals := hb.locals
  cases hterm : b.terminator with
  | switch discr values targets otherwise =>
    rw [hterm] at h hlocals
    have hclean : Clean (f :: rest) (switch discr values targets otherwise) := by
      refine .bind (clean_evalOperand hf hlocals) (hS.evalOperand discr) fun arg => .of_raises ?_
      refine .bind (raises_readArg hE arg) fun v => .bind (.liftError (Ty.fails_kind hE _)) fun kind => ?_
      exact raises_switchOn hE v kind values targets otherwise
    exact hclean m e m' hstack h
  | assert cond expected target message =>
    rw [hterm] at h hlocals
    have hclean : Clean (f :: rest) (assert cond expected target message) := by
      refine .bind (clean_evalOperand hf hlocals) (hS.evalOperand cond) fun arg => .of_raises ?_
      exact .bind (raises_readArg hE arg) fun v => raises_assertOn hE v expected target message
    exact hclean m e m' hstack h
  | call c =>
    rw [hterm] at h hlocals
    exact clean_call hf hlocals (hb.call c hterm) hm.program hstack h
  | ret =>
    rw [hterm] at h
    exact raises_ret hE m e m' h
  | goto target =>
    rw [hterm] at h
    cases h
  | abort | unreachable =>
    rw [hterm] at h
    cases h
    exact rfl

theorem Resolved.attempt (hm : m.Resolved p) {e : EvalError}
    (h : attempt m = .error (.error e) m') : e.isLookup = false := by
  have hE := EvalError.admits_isOther
  cases hpending : m.pending with
  | some e' =>
    obtain ⟨message, rfl⟩ := hm.pending e' hpending
    rw [attempt_of_pending hpending] at h
    cases h
    rfl
  | none =>
    cases hstack : m.stack with
    | nil =>
      rw [attempt_of_empty hpending hstack] at h
      cases h
    | cons f rest =>
      rw [attempt_of_frame hpending hstack] at h
      split at h
      · exact Raises.failReporting hE [m.limits.steps] rfl m.counted _ m' h
      · have hf := hm.frames f (by simp [hstack])
        have hcounted : m.counted.Resolved p := ⟨hm.program, hm.frames, hm.returns, hm.pending⟩
        obtain ⟨b, hblock⟩ := hf.blockOf
        have hb := hf.resolved hblock
        cases hstmt : b.statements[f.stmt]? with
        | some s =>
          rw [stepFrame_of_statement hblock hstmt] at h
          have hlocals := hb.statements s (mem_of_getElem? hstmt)
          have hclean : Clean (f :: rest) (stepStatement s) := by
            cases s with
            | assign place rvalue =>
              refine .bind (clean_assign hf (fun i hi => hlocals i (mem_append_left _ hi))
                fun i hi => hlocals i (mem_append_right _ hi)) (stays_assign place rvalue) fun _ => ?_
              exact .of_raises (.bind (raises_changeFrame _) fun _ => .pure _)
            | nop => exact .of_raises (.bind (raises_changeFrame _) fun _ => .pure _)
          exact hclean m.counted _ m' hstack h
        | none =>
          rw [stepFrame_of_terminator hblock hstmt] at h
          exact clean_terminate hcounted hstack hb h

end Lookups
end Machine

namespace Target

variable {program : Program} {name : String} {config : Config} {t : Target}

/-- The entry frame is at the first block of its function and returns to no other one. -/
theorem resolved_start (hp : program.Resolved) (h : t.Starts program name config) :
    t.start.Resolved program := by
  obtain ⟨f, args, m, ⟨_, hfunction⟩, hpush, hm⟩ := start_eq_ok h
  have hempty : m.stack = [] ∧ m.program = program := by
    rcases hm with rfl | ⟨-, rfl⟩ <;> exact ⟨rfl, rfl⟩
  rw [hempty.2] at hfunction
  have hresolved := hp f (mem_of_find?_eq_some hfunction)
  have hfirst : IsIndex f.blocks.length 0 :=
    ⟨Int.le_refl 0, by have := length_pos_iff.2 hresolved.ne_nil; omega⟩
  obtain ⟨locals, hlocals, hstack⟩ := Machine.stack_pushFrame hpush
  rw [hempty.1] at hstack
  have hfresh := fresh_start h
  refine ⟨hfresh.sound.program, ?_, hstack ▸ .singleton _, by simp [hfresh.pending]⟩
  rw [hstack]
  simpa using ⟨hresolved, hlocals, hfirst⟩

theorem Reaches.resolved (hp : program.Resolved) (hstart : t.start.Resolved program) {m : Machine}
    (h : t.Reaches m) : m.Resolved program := by
  induction h with
  | refl => exact hstart
  | tail _ hleads ih => exact ih.leads hp hleads

/-- In a program that was loaded strictly, no step of any path says that a function has no such block
or no such local, or that a callee got a wrong number of arguments; and every switch has as many
values as targets. -/
theorem lookups_succeed {raw : Json} (hload : Program.load raw true = .ok program)
    (h : ofMain program name config = .ok t ∨ ofSymbolic program name config = .ok t) :
    (∀ m m' e, t.Reaches m → Machine.step m = .error (.error e) m' → e.isLookup = false) ∧
    ∀ f ∈ program.functions, ∀ b ∈ f.blocks, ∀ discr values targets otherwise,
      b.terminator = .switch discr values targets otherwise → values.length = targets.length := by
  have hp := Program.resolved_of_load hload
  refine ⟨fun m m' e hreaches hstep => ?_, fun f hf b hb discr values targets otherwise hterm => ?_⟩
  · obtain ⟨c, hattempt, hc⟩ := written_eq_error.1 hstep
    obtain ⟨rfl, -⟩ := written_eq_local.1 hc
    exact (hreaches.resolved hp (resolved_start hp h)).attempt hattempt
  · have hbalanced := Program.balanced_of_load hload f hf b hb
    rw [hterm] at hbalanced
    exact hbalanced

end Target

/-! ## Callees that are defined later, twice, or instead of a builtin -/

namespace Redefined

def call (callee : String) (args : List Json) (target : Int) : Json :=
  .obj [("terminator", .obj [("call", .str callee), ("args", .arr args), ("target", .int target)])]

def define (name : String) (args : Int) (locals : List String) (blocks : List Json) : Json :=
  .obj [("name", .str name), ("arg_count", .int args), ("locals", .arr (locals.map .str)),
    ("blocks", .arr blocks)]

/-- The entry function calls `g`, which is defined behind it and then again with a parameter, and a
function that is called `alloc` and takes no arguments. -/
def raw : Json :=
  let back : Json := .obj [("terminator", .str "return")]
  .obj [("functions", .arr [
    define "main" 0 ["()"] [call "g" [.obj [("const", .int 7), ("ty", .str "u8")]] 1,
      call "alloc" [] 2, back],
    define "g" 0 ["()"] [back],
    define "alloc" 0 ["()"] [back],
    define "g" 1 ["()", "u8"] [back]])]

def functions : List Function := [
  ⟨.str "main", [.unit], 0, [
    ⟨[], .call ⟨.str "g", [.constant (.int 7) .u8], none, some 1, []⟩⟩,
    ⟨[], .call ⟨.str "alloc", [], none, some 2, []⟩⟩, ⟨[], .ret⟩]⟩,
  ⟨.str "g", [.unit, .u8], 1, [⟨[], .ret⟩]⟩,
  ⟨.str "alloc", [.unit], 0, [⟨[], .ret⟩]⟩]

def start : Machine where
  program := ⟨functions⟩
  limits := {}
  memory := { limit := 104857600, usage := 0, allocs := [(1, ⟨[], [], 1, .stack, [], []⟩)], next := 2 }
  stack := [{ function := functions.head (cons_ne_nil _ _), locals := [.known 1 0] }]

theorem load_raw : Program.load raw true = .ok ⟨functions⟩ := by rfl

theorem ofMain_program : Target.ofMain ⟨functions⟩ "main" {} = .ok { start := start } := by rfl

end Redefined

theorem Target.lookups_succeed_sample :
    Program.load Redefined.raw true = .ok ⟨Redefined.functions⟩ ∧
    Target.ofMain ⟨Redefined.functions⟩ "main" {} = .ok { start := Redefined.start } ∧
    ∀ m m' e, Target.Reaches { start := Redefined.start } m →
      Machine.step m = .error (.error e) m' → e.isLookup = false :=
  ⟨Redefined.load_raw, Redefined.ofMain_program,
    (Target.lookups_succeed Redefined.load_raw (.inl Redefined.ofMain_program)).1⟩

end SymExec

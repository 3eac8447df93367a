import SymExec.Proofs.Overwrite

/-!
# What an assignment leaves as it was

An assignment finds its place, evaluates its operands and writes one value. An operand that is a text
gets a static allocation, and nothing else of the memory changes before the value is written, which
overwrites the bytes of the place only (`Target.assignment_writes_only_place`).
-/
namespace SymExec

open Run

theorem Text.encode_eq_ok {s : String} {bytes : List UInt8} (h : encode s = .ok bytes) :
    s.toUTF8.toList = bytes := by
  unfold encode at h
  split at h <;> cases h
  rfl

def Operand.texts : Operand → List (List (BitVec 8))
  | .constant value ty =>
    match ty.pointee?, value with
    | some .str, .str s => [s.toUTF8.toList.map fun b => BitVec.ofNat 8 b.toNat]
    | _, _ => []
  | .copy _ => []

/-- The texts among the operands of an assignment, in the order of their evaluation. -/
def Rvalue.texts : Rvalue → List (List (BitVec 8))
  | .use operand | .unary _ operand | .cast operand _ => operand.texts
  | .binary _ lhs rhs | .checked _ lhs rhs => lhs.texts ++ rhs.texts
  | .ref _ _ | .len _ => []

/-! ## Texts -/

namespace Memory

variable {m m' m1 : Memory} {texts texts' : List (List (BitVec 8))}

/-- The outline of the static allocations of texts, which are numbered from `next` on. -/
def statics (next : Nat) (texts : List (List (BitVec 8))) : List (Nat × Region × Nat) :=
  (texts.zipIdx next).map fun x => (x.2, .static, x.1.length)

/-- The static allocations of texts are new, and nothing else is. -/
structure Annexes (texts : List (List (BitVec 8))) (m m' : Memory) : Prop where
  compact : m'.Compact
  next : m'.next = m.next + texts.length
  outline : m'.outline = m.outline ++ statics m.next texts
  find? : ∀ id, m.isLive id = true → m'.find? id = m.find? id

theorem Annexes.refl (hm : m.Compact) : m.Annexes [] m :=
  ⟨hm, rfl, by simp [statics], fun _ _ => rfl⟩

theorem Annexes.trans (h : Annexes texts m m1) (h' : Annexes texts' m1 m') :
    Annexes (texts ++ texts') m m' := by
  refine ⟨h'.compact, ?_, ?_, fun id hid => ?_⟩
  · rw [h'.next, h.next, List.length_append, Nat.add_assoc]
  · rw [h'.outline, h.outline, h.next, List.append_assoc, statics, statics, statics,
      List.zipIdx_append, List.map_append]
  · have hlive : m1.isLive id := by rwa [isLive, h.find? id hid]
    rw [h'.find? id hlive, h.find? id hid]

theorem annexes_allocateStatic {data : List (BitVec 8)} {p : Pointer} (hm : m.Compact)
    (h : allocateStatic data m = .ok p m') : Annexes [data] m m' := by
  have hcompact := (sizes_allocateStatic data m hm).compact
  rw [final_of_ok h] at hcompact
  obtain ⟨p, m1, hallocate, hfill⟩ := bind_eq_ok.1 h
  have hfilled := rewritten_filled hm.toRegular hallocate m1.store
    (show (data.map Cell.known).length = _ by simp)
  obtain ⟨rfl, rfl⟩ := allocate_eq_ok hallocate
  cases hfill
  refine ⟨hcompact, rfl, hfilled.outline.trans ?_, fun id hid => ?_⟩
  · simp [Memory.outline, statics, fresh, Allocation.size]
  · obtain ⟨a, ha⟩ := Option.isSome_iff_exists.1 hid
    have hbelow : id < m.next := hm.ordered.below _ (mem_of_lookup ha)
    have hlookup : (m.allocs ++ [(m.next, fresh data.length 1 .static)]).lookup id = some a := by
      rw [List.lookup_append, show m.allocs.lookup id = some a from ha]
      rfl
    rw [find?_update, find?, hlookup, ha]
    simp [Pointer.alloc, hbelow.ne]

/-- A read of what was there before does not see the texts. -/
theorem Annexes.excerpt_eq (h : Annexes texts m m') {q : Pointer} (hlive : m.isLive q.alloc)
    (n k : Int) : m'.excerpt q n k = m.excerpt q n k := by
  cases q with
  | symbolic id o => rfl
  | known id o => simp only [excerpt, checked, get, h.find? id hlive]

theorem Annexes.separate (h : Annexes texts m m') {id offset : Nat} {size n : Int} {q : Pointer}
    (hlive : m.isLive q.alloc) (hseparate : m.Separate id offset size q n) :
    m'.Separate id offset size q n := by
  rintro start rfl
  obtain ⟨hapart, hclear⟩ := hseparate start rfl
  exact ⟨hapart, fun a ha => hclear a ((h.find? id hlive).symm.trans ha)⟩

end Memory

namespace Machine

variable {m m' m1 : Machine} {texts texts' : List (List (BitVec 8))} {α β : Type}

/-- Only the memory changes, by the static allocations of texts. -/
def Annexes (texts : List (List (BitVec 8))) (m m' : Machine) : Prop :=
  ∃ memory, m' = { m with memory := memory } ∧ m.memory.Annexes texts memory

theorem Annexes.trans (h : Annexes texts m m1) (h' : Annexes texts' m1 m') :
    Annexes (texts ++ texts') m m' := by
  obtain ⟨memory, rfl, h⟩ := h
  obtain ⟨memory', rfl, h'⟩ := h'
  exact ⟨memory', rfl, h.trans h'⟩

/-- A computation makes static allocations of texts and changes nothing else. -/
def Prepares (texts : List (List (BitVec 8))) (act : Run Machine α) : Prop :=
  ∀ m a m', m.memory.Compact → act m = .ok a m' → Annexes texts m m'

namespace Prepares

variable {act : Run Machine α}

theorem of_keeps (h : Keeps Unchanged act) : Prepares [] act := by
  intro m a m' hm hok
  obtain rfl : m' = m := by
    rw [← final_of_ok hok]
    exact h m
  exact ⟨m'.memory, rfl, .refl hm⟩

theorem bind {f : α → Run Machine β} (h : Prepares texts act) (hf : ∀ a, Prepares texts' (f a)) :
    Prepares (texts ++ texts') (act >>= f) := by
  intro m b m' hm hok
  obtain ⟨a, m1, ha, hb⟩ := bind_eq_ok.1 hok
  have hfirst := h m a m1 hm ha
  obtain ⟨memory, rfl, hmemory⟩ := hfirst
  exact Annexes.trans ⟨memory, rfl, hmemory⟩ (hf a _ b m' hmemory.compact hb)

theorem last {f : α → Run Machine β} (h : Prepares texts act) (hf : ∀ a, Prepares [] (f a)) :
    Prepares texts (act >>= f) := by
  simpa using bind h hf

theorem onStore (act : Run Store α) : Prepares [] (onStore act) := by
  intro m a m' hm hok
  obtain ⟨memory, hact, rfl⟩ := onMemory_eq_ok hok
  unfold Memory.onStore at hact
  split at hact
  · rename_i s _
    cases hact
    have hcompact := Memory.compact_of_rewritten hm (Memory.rewritten_store hm.toRegular s)
    exact ⟨_, rfl, hcompact, rfl, by simp [Memory.statics, Memory.outline], fun _ _ => rfl⟩
  · cases hact

theorem castValue (v : Scalar) (source dest : Ty) : Prepares [] (castValue v source dest) := by
  unfold Machine.castValue
  split
  · exact of_keeps (by grind)
  · exact onStore _

theorem evalConstant (value : Json) (ty : Ty) :
    Prepares (Operand.constant value ty).texts (evalConstant value ty) := by
  by_cases htext : ∃ s, ty.pointee? = some .str ∧ value = .str s
  · obtain ⟨s, hpointee, rfl⟩ := htext
    simp only [Operand.texts, Machine.evalConstant, hpointee]
    cases hbytes : Text.encode s with
    | error e => rintro _ _ _ _ ⟨⟩
    | ok bytes =>
      rw [Text.encode_eq_ok hbytes]
      change Prepares _ (onMemory (Memory.allocateStatic _) >>= fun p => pure _)
      refine last (fun m p m' hm hok => ?_) fun p => of_keeps (by grind)
      obtain ⟨memory, hact, rfl⟩ := onMemory_eq_ok hok
      exact ⟨memory, rfl, Memory.annexes_allocateStatic hm hact⟩
  · have hnone : (Operand.constant value ty).texts = [] := by
      unfold Operand.texts
      grind
    rw [hnone]
    unfold Machine.evalConstant
    exact of_keeps (by grind)

theorem evalOperand (o : Operand) : Prepares o.texts (evalOperand o) := by
  cases o with
  | copy place =>
    refine of_keeps ?_
    unfold Machine.evalOperand
    grind [keeps_evalPlace]
  | constant value ty =>
    refine last (evalConstant value ty) fun _ => of_keeps ?_
    grind

end Prepares

/-- A computation makes static allocations of texts and then overwrites a place. -/
def Assigns (texts : List (List (BitVec 8))) (dest : PlaceRef) (act : Run Machine Unit) : Prop :=
  ∀ m m', m.memory.Compact → act m = .ok () m' →
    ∃ m1, m.Annexes texts m1 ∧ m1.Overwrites dest.ptr dest.ty m'

namespace Assigns

variable {dest : PlaceRef}
variable {act : Run Machine α} {f : α → Run Machine Unit}

theorem bind (h : Prepares texts act) (hf : ∀ a, Assigns texts' dest (f a)) :
    Assigns (texts ++ texts') dest (act >>= f) := by
  intro m m' hm hok
  obtain ⟨a, m1, ha, hb⟩ := bind_eq_ok.1 hok
  have hfirst := h m a m1 hm ha
  obtain ⟨memory, rfl, hmemory⟩ := hfirst
  obtain ⟨m2, hannexes, hoverwrites⟩ := hf a _ m' hmemory.compact hb
  exact ⟨m2, .trans ⟨memory, rfl, hmemory⟩ hannexes, hoverwrites⟩

theorem skip (h : Prepares [] act) (hf : ∀ a, Assigns texts dest (f a)) :
    Assigns texts dest (act >>= f) := bind h hf

theorem last (h : Prepares texts act) (hf : ∀ a, Assigns [] dest (f a)) :
    Assigns texts dest (act >>= f) := by
  simpa using bind h hf

theorem check {e : Except EvalError α} (hf : ∀ a, Assigns texts dest (f a)) :
    Assigns texts dest ((liftM e : Run Machine α) >>= f) :=
  skip (.of_keeps (by grind)) hf

theorem fail (e : EvalError) : Assigns texts dest (Run.fail e) := by
  rintro m m' - ⟨⟩

theorem crash : Assigns texts dest (throw .crash) := by
  rintro m m' - ⟨⟩

variable (hty : dest.ty.isNonNegative)
include hty

theorem writeScalar (v : Scalar) : Assigns [] dest (writeScalar dest.ptr v dest.ty true) :=
  fun m _ hm hok => ⟨m, ⟨m.memory, rfl, .refl hm⟩, overwrites_writeScalar hm hty hok⟩

theorem writePair (v w : Scalar) : Assigns [] dest (writePair dest.ptr v w dest.ty true) :=
  fun m _ hm hok => ⟨m, ⟨m.memory, rfl, .refl hm⟩, overwrites_writePair hm hty hok⟩

theorem writeValue (v : Value) : Assigns [] dest (writeValue dest.ptr v dest.ty true) :=
  fun m _ hm hok => ⟨m, ⟨m.memory, rfl, .refl hm⟩, overwrites_writeValue hm hty hok⟩

theorem castTo (source : Arg) : Assigns [] dest (castTo dest source) := by
  refine check fun fat => ?_
  split
  · refine check fun sourceFat => ?_
    split
    · exact writeValue hty _
    · refine check fun inner => ?_
      split
      · exact skip (.of_keeps (keeps_readArg source)) fun data => writePair hty data _
      · exact fail _
  · refine check fun sourceFat => ?_
    split
    · extract_lets proceed
      have hproceed (data : Scalar) : Assigns [] dest (proceed data) :=
        skip (.castValue _ _ _) fun v => writeScalar hty v
      split
      · exact hproceed _
      · exact skip (.of_keeps (keeps_readPair _ _)) fun _ => hproceed _
      · exact crash
    · refine skip (.of_keeps (keeps_readArg source)) fun v => ?_
      exact skip (.castValue _ _ _) fun v => writeScalar hty v

end Assigns

theorem assign_eq_ok {place : Place} {rvalue : Rvalue} (hm : m.memory.Compact) (hfits : m.Fits True)
    (h : assign place rvalue m = .ok () m') :
    ∃ dest m1, evalPlace place m = .ok dest m ∧ m.Annexes rvalue.texts m1 ∧
      m1.Overwrites dest.ptr dest.ty m' := by
  obtain ⟨dest, m0, hdest, hact⟩ := bind_eq_ok.1 h
  obtain rfl := eq_of_evalPlace hdest
  have hty := evalPlace_fits hfits hdest trivial
  have hfinish {act : Run Machine Unit} (hassigns : Assigns rvalue.texts dest act)
      (h : act m0 = .ok () m') : ∃ dest m1, evalPlace place m0 = .ok dest m0 ∧
        m0.Annexes rvalue.texts m1 ∧ m1.Overwrites dest.ptr dest.ty m' :=
    ⟨dest, (hassigns m0 m' hm h).imp fun _ h => ⟨hdest, h⟩⟩
  cases rvalue with
  | use operand => exact hfinish (.last (.evalOperand operand) fun arg => .writeValue hty _) hact
  | binary op lhs rhs =>
    refine hfinish (.bind (.evalOperand lhs) fun lhs => .last (.evalOperand rhs) fun rhs => ?_) hact
    refine .check fun rhsKind => .skip (.of_keeps (keeps_readArg lhs)) fun a => ?_
    refine .skip (.of_keeps (keeps_readArg rhs)) fun b => .check fun kind => ?_
    exact .skip (.onStore _) fun v => .writeScalar hty v
  | checked op lhs rhs =>
    refine hfinish (.bind (.evalOperand lhs) fun lhs => .last (.evalOperand rhs) fun rhs => ?_) hact
    refine .check fun rhsKind => .skip (.of_keeps (keeps_readArg lhs)) fun a => ?_
    refine .skip (.of_keeps (keeps_readArg rhs)) fun b => .check fun kind => ?_
    exact .skip (.onStore _) fun v => .writePair hty v.1 v.2
  | unary op operand =>
    refine hfinish (.last (.evalOperand operand) fun arg => ?_) hact
    refine .skip (.of_keeps (keeps_readArg arg)) fun v => .check fun kind => ?_
    exact .skip (.onStore _) fun v => .writeScalar hty v
  | cast operand ty => exact hfinish (.last (.evalOperand operand) fun arg => .castTo hty arg) hact
  | ref place mutable =>
    refine hfinish (.skip (.of_keeps (keeps_evalPlace place)) fun ref => .check fun sized => ?_) hact
    split
    · exact .writeScalar hty _
    · split
      · exact .writePair hty _ _
      · exact .crash
  | len place =>
    refine hfinish (.skip (.of_keeps (keeps_evalPlace place)) fun ref => ?_) hact
    split
    · exact .writeScalar hty _
    · exact .writeScalar hty _
    · exact .writeScalar hty _
    · exact .fail _

theorem not_assuming {f : Frame} {rest : List Frame} (hstack : m.stack = f :: rest) {b : Block}
    (hblock : blockOf f = .ok b) {s : Statement} (hstmt : b.statements[f.stmt]? = some s) :
    ¬ m.Assuming := by
  rintro ⟨g, c, name, hg, hnext, -, -⟩
  rw [hstack] at hg
  cases hg
  unfold nextCall? at hnext
  rw [hblock] at hnext
  simp [hstmt] at hnext

end Machine

/-- A statement that assigns changes no byte but those of its place: a read of a live allocation gives
the same value or error as before, unless it touches the place or a stored pointer that does. The new
allocations are those of texts, the stack changes in the number of the statement, and the path stays. The
place is found by the machine that has counted the step, and its offset counts modulo `2 ^ 64`. -/
theorem Target.assignment_writes_only_place {program : Program} {name : String} {config : Config}
    {t : Target} (hp : program.NonNegative)
    (ht : ofMain program name config = .ok t ∨ ofSymbolic program name config = .ok t)
    {m m' : Machine} (h : t.Reaches m) {f : Frame} {rest : List Frame} (hstack : m.stack = f :: rest)
    {b : Block} (hblock : Machine.blockOf f = .ok b) {place : Place} {rvalue : Rvalue}
    (hstmt : b.statements[f.stmt]? = some (.assign place rvalue)) {r : StepResult}
    (hstep : Machine.step m = .ok r m') :
    ∃ dest size, Machine.evalPlace place m.counted = .ok dest m.counted ∧ dest.ty.size = .ok size ∧
      (∀ (q : Pointer) (n align : Int), 0 ≤ n → m.memory.isLive q.alloc = true →
        (∀ id offset, dest.ptr = .known id offset →
          m.memory.Separate id (offset % 2 ^ 64) size q n) →
        m'.memory.readBytes q n align = m.memory.readBytes q n align ∧
        ∀ kind, m'.memory.readScalar q n kind align = m.memory.readScalar q n kind align) ∧
      m'.memory.outline = m.memory.outline ++ Memory.statics m.memory.next rvalue.texts ∧
      m'.stack = { f with stmt := f.stmt + 1 } :: rest ∧
      m'.memory.store.path = m.memory.store.path := by
  have hpath := Machine.path_step (Machine.not_assuming hstack hblock hstmt)
  rw [final_of_ok hstep] at hpath
  have hcompact := (h.housed hp ht).compact
  have hfits := (Reaches.sound (fresh_start ht) h).fits hp True
  obtain ⟨hnil, -, -⟩ | ⟨g, _, hg, hframe⟩ := Machine.step_eq_ok hstep
  · rw [hstack] at hnil
    cases hnil
  · cases hstack.symm.trans hg
    rw [Machine.stepFrame_of_statement hblock hstmt] at hframe
    obtain ⟨_, m2, hassign, hnext⟩ := bind_eq_ok.1 hframe
    have hfits' : m.counted.Fits True := ⟨hfits.program, hfits.functions⟩
    obtain ⟨dest, m1, hdest, ⟨memory, rfl, hannexes⟩, size, memory', hsize, rfl, hover⟩ :=
      Machine.assign_eq_ok (m := m.counted) hcompact hfits' hassign
    obtain ⟨_, m3, hchange, hdone⟩ := bind_eq_ok.1 hnext
    cases hdone
    have hm3 : m' = { m.counted with
        memory := memory', stack := { f with stmt := f.stmt + 1 } :: rest } := by
      cases hchange
      simp [Machine.counted, hstack]
    subst hm3
    refine ⟨dest, size, hdest, hsize, fun q n align hn hlive hseparate => ?_, ?_, rfl, hpath⟩
    · refine Memory.reads_eq_of_excerpt ((hover.excerpt_eq hn
        (fun id offset hd => hannexes.separate hlive (hseparate id offset hd)) align).trans ?_)
      exact hannexes.excerpt_eq hlive n align
    · exact hover.rewritten.outline.trans hannexes.outline

/-- The tuple that stands beside the index is read as before. -/
theorem Target.assignment_writes_only_place_sample :
    Row.program.NonNegative ∧ ofMain Row.program "main" {} = .ok Row.target ∧
    Machine.step Row.start = .ok .advance Row.after ∧
    (∀ kind, Row.after.memory.readScalar (.known 2 0) 16 kind 4
      = Row.start.memory.readScalar (.known 2 0) 16 kind 4) ∧
    Row.after.memory.outline = Row.start.memory.outline := by
  have hnonneg : Row.program.NonNegative := by decide
  obtain ⟨dest, size, hdest, hsize, hreads, houtline, -⟩ := assignment_writes_only_place hnonneg
    (.inl Row.ofMain_program) .refl rfl rfl rfl Row.step_start
  have hplace : Machine.evalPlace ⟨2, []⟩ Row.start.counted
      = .ok ⟨.known 3 0, .usize, none⟩ Row.start.counted := by rfl
  cases hplace.symm.trans hdest
  refine ⟨hnonneg, Row.ofMain_program, Row.step_start,
    (hreads _ 16 4 (by decide) rfl ?_).2, houtline⟩
  rintro _ _ ⟨⟩ _ ⟨⟩

end SymExec

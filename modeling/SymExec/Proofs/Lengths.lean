import SymExec.Machine
import SymExec.Proofs.Run

/-!
# Array lengths

A program may name array types of negative length, and such a type may have a negative size. If no
length in a program is negative, then no size is (`Ty.size_nonneg`): parts of a type and what it
points to are types of the program again, so this holds of every place and operand that is met
(`Machine.evalPlace_fits`, `Machine.evalOperand_fits`).

The assumption is carried along as a proposition `P`: a type fits `P` if `P` rules out negative
lengths in it. Where nothing is assumed, `P` is `False`.
-/
namespace SymExec

open Run

theorem Section.mem_of_item? {α : Type} {xs : List α} {i : Int} {x : α}
    (h : item? xs i = some x) : x ∈ xs := by
  unfold item? at h
  grind

/-! ## Types -/

namespace Ty

variable {u : Ty} {n : Int}

mutual

def isNonNegative : Ty → Bool
  | rawPtr inner _ | ref inner _ | slice inner => inner.isNonNegative
  | array elem length => 0 ≤ length && elem.isNonNegative
  | tuple fields => allNonNegative fields
  | struct _ fields _ => allNonNegative fields
  | _ => true

def allNonNegative : List Ty → Bool
  | [] => true
  | t :: ts => t.isNonNegative && allNonNegative ts

end

theorem allNonNegative_iff {ts : List Ty} :
    allNonNegative ts = true ↔ ∀ t ∈ ts, t.isNonNegative = true := by
  induction ts with
  | nil => simp [allNonNegative]
  | cons t ts ih => simp [allNonNegative, ih]

theorem alignUp_nonneg (hn : 0 ≤ n) (align : Nat) : 0 ≤ alignUp n align := by
  unfold alignUp
  rcases Nat.eq_zero_or_pos align with rfl | halign
  · simp
  · exact Int.mul_nonneg (Int.ediv_nonneg (by omega) (by omega)) (by omega)

theorem size_pointer_nonneg (l : Layout) : ∀ n ∈ l.pointer.size, 0 ≤ n := by
  unfold Layout.pointer
  split <;> simp [pointerSize]

mutual

theorem layout_nonneg : ∀ {t : Ty} {l : Layout}, t.isNonNegative = true → t.layout = .ok l →
    ∀ n ∈ l.size, 0 ≤ n
  | int _ _ _, _, _, h | bool, _, _, h | char, _, _, h | f32, _, _, h | f64, _, _, h
  | fnPtr _, _, _, h | str, _, _, h => by
    unfold layout at h
    cases h
    simp
  | rawPtr inner _, _, _, h | ref inner _, _, _, h => by
    unfold layout at h
    obtain ⟨l, -, ⟨⟩⟩ := bind_iff.1 h
    exact size_pointer_nonneg l
  | slice elem, _, _, h => by
    unfold layout at h
    obtain ⟨l, -, ⟨⟩⟩ := bind_iff.1 h
    simp
  | array elem length, _, ht, h => by
    unfold layout at h
    unfold isNonNegative at ht
    rw [Bool.and_eq_true, decide_eq_true_eq] at ht
    obtain ⟨l, hl, h⟩ := bind_iff.1 h
    have hinner := layout_nonneg ht.2 hl
    split at h
    · rename_i size hsize
      cases h
      simpa using Int.mul_nonneg (hinner size hsize) ht.1
    · cases h
  | tuple fields, _, ht, h | struct _ fields _, _, ht, h => by
    unfold layout at h
    unfold isNonNegative at ht
    obtain ⟨whole, hwhole, ⟨⟩⟩ := bind_iff.1 h
    exact place_nonneg ht (Int.le_refl 0) hwhole

theorem place_nonneg : ∀ {ts : List Ty} {offset : Int} {align : Nat} {whole : List Int × Layout},
    allNonNegative ts = true → 0 ≤ offset → place ts offset align = .ok whole →
    ∀ n ∈ whole.2.size, 0 ≤ n
  | [], offset, align, _, _, hoffset, h => by
    unfold place at h
    cases h
    simpa using alignUp_nonneg hoffset align
  | t :: ts, offset, align, _, hts, hoffset, h => by
    unfold place at h
    unfold allNonNegative at hts
    rw [Bool.and_eq_true] at hts
    obtain ⟨l, hl, h⟩ := bind_iff.1 h
    dsimp only at h
    split at h
    · split at h
      · cases h
        simp
      · cases h
    · rename_i size hsize
      have hnext : 0 ≤ alignUp offset l.align + size :=
        Int.add_nonneg (alignUp_nonneg hoffset l.align) (layout_nonneg hts.1 hl size hsize)
      obtain ⟨rest, hrest, ⟨⟩⟩ := bind_iff.1 h
      exact @place_nonneg _ _ _ rest hts.2 hnext hrest

end

/-- If `P` holds, no array in the type has a negative length. -/
def Fits (P : Prop) (t : Ty) : Prop := P → t.isNonNegative = true

variable {P : Prop} {t : Ty}

theorem fits_of_not (h : ¬ P) (t : Ty) : t.Fits P := fun hP => absurd hP h

@[grind →] theorem Fits.size_nonneg (h : t.Fits P) (hsize : t.size = .ok n) (hP : P) : 0 ≤ n := by
  unfold size at hsize
  obtain ⟨l, hl, hsize⟩ := bind_iff.1 hsize
  split at hsize
  · rename_i size heq
    cases hsize
    exact layout_nonneg (h hP) hl _ heq
  · cases hsize

theorem Fits.pointee? (h : t.Fits P) (hu : t.pointee? = some u) : u.Fits P := by
  intro hP
  have ht := h hP
  unfold Ty.pointee? at hu
  split at hu
  · cases hu
    simpa [isNonNegative] using ht
  · cases hu
    simpa [isNonNegative] using ht
  · cases hu

@[grind →] theorem Fits.pointee (h : t.Fits P) (hu : t.pointee = .ok u) : u.Fits P := by
  unfold Ty.pointee at hu
  split at hu
  · rename_i hpointee
    cases hu
    exact h.pointee? hpointee
  · cases hu

theorem Fits.fields (h : t.Fits P) {ts : List Ty} (hts : t.fields? = some ts) :
    ∀ u ∈ ts, u.Fits P := by
  intro u hu hP
  have ht := h hP
  unfold fields? at hts
  split at hts
  · cases hts
    exact allNonNegative_iff.1 (by simpa [isNonNegative] using ht) u hu
  · cases hts
    exact allNonNegative_iff.1 (by simpa [isNonNegative] using ht) u hu
  · cases hts

theorem Fits.elem {elem : Ty} {length : Int} (h : (array elem length).Fits P) : elem.Fits P := by
  intro hP
  have ht := h hP
  unfold isNonNegative at ht
  rw [Bool.and_eq_true] at ht
  exact ht.2

theorem Fits.sliceElem {elem : Ty} (h : (slice elem).Fits P) : elem.Fits P := by
  intro hP
  have ht := h hP
  rwa [isNonNegative] at ht

theorem fits_strRef : strRef.Fits P := fun _ => by simp [isNonNegative]

end Ty

/-! ## Programs -/

def Operand.types : Operand → List Ty
  | copy _ => []
  | constant _ ty => [ty]

def Rvalue.types : Rvalue → List Ty
  | use operand => operand.types
  | binary _ lhs rhs => lhs.types ++ rhs.types
  | checked _ lhs rhs => lhs.types ++ rhs.types
  | unary _ operand => operand.types
  | cast operand ty => operand.types ++ [ty]
  | ref _ _ => []
  | len _ => []

def Statement.types : Statement → List Ty
  | assign _ rvalue => rvalue.types
  | nop => []

def Call.types (c : Call) : List Ty := c.args.flatMap Operand.types ++ c.typeArgs

def Terminator.types : Terminator → List Ty
  | switch discr _ _ _ => discr.types
  | assert cond _ _ _ => cond.types
  | call c => c.types
  | _ => []

def Block.types (b : Block) : List Ty := b.statements.flatMap Statement.types ++ b.terminator.types

def Function.types (f : Function) : List Ty := f.locals ++ f.blocks.flatMap Block.types

def Program.types (p : Program) : List Ty := p.functions.flatMap Function.types

/-- No array type of a program has a negative length. -/
def Program.NonNegative (p : Program) : Prop := ∀ t ∈ p.types, t.isNonNegative = true

instance (p : Program) : Decidable p.NonNegative :=
  inferInstanceAs (Decidable (∀ t ∈ p.types, t.isNonNegative = true))

def Function.Fits (P : Prop) (f : Function) : Prop := ∀ t ∈ f.types, t.Fits P

def Program.Fits (P : Prop) (p : Program) : Prop := ∀ f ∈ p.functions, f.Fits P

theorem Program.NonNegative.fits {p : Program} (h : p.NonNegative) (P : Prop) : p.Fits P :=
  fun f hf t ht _ => h t (List.mem_flatMap.2 ⟨f, hf, ht⟩)

structure Machine.Fits (P : Prop) (m : Machine) : Prop where
  program : m.program.Fits P
  functions : ∀ f ∈ m.stack, f.function.Fits P

/-! ## Places and operands -/

namespace Machine

variable {P : Prop}
variable {m m' : Machine} {ref : PlaceRef} {index : Int} {r : PlaceRef}

theorem pairFields_fits {ty : Ty} (hty : ty.Fits P) {fields : (Ty × Int) × (Ty × Int)}
    (h : pairFields ty = .ok fields) : fields.1.1.Fits P ∧ fields.2.1.Fits P := by
  unfold pairFields at h
  split at h
  · rename_i a b hfields
    obtain ⟨offsets, -, h⟩ := bind_iff.1 h
    split at h
    · cases h
      have hfits := hty.fields hfields
      exact ⟨hfits a (by simp), hfits b (by simp)⟩
    · cases h
  · cases h

theorem localAt_fits {f : Frame} (hf : f.function.Fits P) {r : Pointer × Ty}
    (h : localAt f index = .ok r) : r.2.Fits P := by
  unfold localAt at h
  split at h
  · rename_i p ty _ hty
    split at h
    · cases h
      exact hf ty (List.mem_append_left _ (Section.mem_of_item? hty))
    · cases h
  · cases h

theorem element_fits (href : ref.ty.Fits P) (h : element ref index = .ok r) : r.ty.Fits P := by
  unfold element at h
  extract_lets proceed at h
  have hproceed {elem : Ty} {length : Int} (helem : elem.Fits P)
      (h : proceed (elem, length) = .ok r) : r.ty.Fits P := by
    dsimp only [proceed] at h
    split at h
    · cases h
    · obtain ⟨size, -, h⟩ := bind_iff.1 h
      obtain ⟨p, -, ⟨⟩⟩ := bind_iff.1 h
      exact helem
  split at h
  · rename_i hty
    rw [hty] at href
    exact hproceed href.elem h
  · rename_i hty
    rw [hty] at href
    obtain ⟨length, -, h⟩ := bind_iff.1 h
    exact hproceed href.sliceElem h
  · cases h

theorem fieldOf_fits (href : ref.ty.Fits P) (h : fieldOf ref index = .ok r) : r.ty.Fits P := by
  unfold fieldOf at h
  split at h
  · cases h
  · rename_i fields hfields
    dsimp only at h
    split at h
    · cases h
    · obtain ⟨offsets, -, h⟩ := bind_iff.1 h
      split at h
      · rename_i hty
        obtain ⟨p, -, ⟨⟩⟩ := bind_iff.1 h
        exact href.fields hfields _ (Section.mem_of_item? hty)
      · cases h

theorem deref_fits (href : ref.ty.Fits P) : Yields (fun r => r.ty.Fits P) (deref ref) := by
  intro m r m' h
  obtain ⟨pointee, hpointee, h⟩ := liftBind_eq_ok.1 h
  have hfits := href.pointee hpointee
  obtain ⟨fat, m2, -, h⟩ := bind_eq_ok.1 h
  split at h
  · obtain ⟨_, _, -, h⟩ := bind_eq_ok.1 h
    obtain ⟨_, _, -, ⟨⟩⟩ := bind_eq_ok.1 h
    exact hfits
  · obtain ⟨_, _, -, h⟩ := bind_eq_ok.1 h
    obtain ⟨_, _, -, ⟨⟩⟩ := bind_eq_ok.1 h
    exact hfits

theorem project_fits (f : Frame) (href : ref.ty.Fits P) (p : Projection) :
    Yields (fun r => r.ty.Fits P) (project f ref p) := by
  have helement (index : Int) : Yields (fun r => r.ty.Fits P)
      (liftM (element ref index) : Run Machine PlaceRef) := fun m r m' h =>
    element_fits href (lift_eq_ok.1 (of_eq_ok.1 h).1)
  cases p with
  | deref => exact deref_fits href
  | field index => exact fun m r m' h => fieldOf_fits href (of_eq_ok.1 h).1
  | constIndex index => exact helement index
  | index base =>
    refine Yields.bind fun place => Yields.bind fun v => ?_
    split
    · exact Yields.fail _
    · exact Yields.bind fun index => helement index

theorem mem_of_frame {f : Frame} (h : frame m = .ok f m') : f ∈ m.stack := by
  obtain ⟨_, _, ⟨⟩, h⟩ := bind_eq_ok.1 h
  cases hstack : m.stack with
  | nil =>
    rw [hstack] at h
    cases h
  | cons g rest =>
    rw [hstack] at h
    cases h
    exact List.mem_cons_self

/-- The type of a place is a part of the type of a local, or what such a part points to. -/
theorem evalPlace_fits (hm : m.Fits P) {place : Place} (h : evalPlace place m = .ok ref m') :
    ref.ty.Fits P := by
  obtain ⟨f, m1, hframe, h⟩ := bind_eq_ok.1 h
  have hf := mem_of_frame hframe
  obtain ⟨⟨p, ty⟩, hlocal, h⟩ := liftBind_eq_ok.1 h
  have hlocal := localAt_fits (hm.functions f hf) hlocal
  exact Yields.foldlM (fun ref p href => project_fits f href p) hlocal _ _ _ _ h

theorem evalOperand_fits (hm : m.Fits P) {operand : Operand} (hoperand : ∀ t ∈ operand.types, t.Fits P)
    {arg : Arg} (h : evalOperand operand m = .ok arg m') : arg.ty.Fits P := by
  cases operand with
  | constant value ty =>
    obtain ⟨v, m1, -, ⟨⟩⟩ := bind_eq_ok.1 h
    exact hoperand ty (List.mem_singleton_self ty)
  | copy place =>
    obtain ⟨ref, m1, href, h⟩ := bind_eq_ok.1 h
    have hfits := evalPlace_fits hm href
    obtain ⟨fat, m2, -, h⟩ := bind_eq_ok.1 h
    split at h
    · obtain ⟨_, _, -, ⟨⟩⟩ := bind_eq_ok.1 h
      exact hfits
    · obtain ⟨primitive, m3, -, h⟩ := bind_eq_ok.1 h
      split at h
      · obtain ⟨_, _, -, ⟨⟩⟩ := bind_eq_ok.1 h
        exact hfits
      · cases h
        exact hfits

end Machine
end SymExec

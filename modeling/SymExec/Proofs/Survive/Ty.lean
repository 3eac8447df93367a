import SymExec.Proofs.Frames
import SymExec.Proofs.Lengths
import SymExec.Proofs.Survive

/-!
# Types of modest size

A type is modest if its size, and that of every type in it or behind it, is a number of cells that can
be made at once, and their names can be written. Parts of a modest type and what it points to are
modest again. The extent of a value is always found: a sized type needs no length, and an unsized one
has it in its last part.
-/
namespace SymExec

open Run

theorem Text.isPrintableInt_of_lt {n : Int} (h : n.natAbs < 2 ^ 99) : isPrintableInt n := by
  have hdigits : 2 ^ 99 ≤ 10 ^ maxDigits := by
    calc 2 ^ 99 ≤ 10 ^ 99 := Nat.pow_le_pow_left (by decide) 99
      _ ≤ 10 ^ maxDigits := Nat.pow_le_pow_right (by decide) (by decide)
  unfold isPrintableInt
  exact decide_eq_true (Nat.lt_of_lt_of_le h hdigits)

/-- A number of cells that can be made at once can be written. -/
theorem Memory.isPrintableInt_of_lt_maxCells {n : Int} (hpos : 0 ≤ n) (h : n < maxCells) :
    Text.isPrintableInt n := by
  unfold maxCells at h
  exact Text.isPrintableInt_of_lt (by omega)

namespace Ty

variable {ts : List Ty} {whole : List Int × Layout}

/-! ## Modest types -/

/-- Whether the size of a type, if it has one, is a number of cells that can be made at once. -/
def isSmall (t : Ty) : Bool :=
  match t.layout with
  | .ok ⟨some size, _⟩ => 0 ≤ size && size < Memory.maxCells
  | _ => true

def isHandy (t : Ty) : Bool := t.isSmall && t.nameFault?.isNone

mutual

/-- Whether a type and all types in it or behind it are small and have names. -/
def isModest : Ty → Bool
  | rawPtr inner _ | ref inner _ | slice inner => inner.isModest
  | array elem length => (array elem length).isHandy && elem.isModest
  | tuple fields => (tuple fields).isHandy && allModest fields
  | struct name fields dropGlue => (struct name fields dropGlue).isHandy && allModest fields
  | _ => true

def allModest : List Ty → Bool
  | [] => true
  | t :: ts => t.isModest && allModest ts

end

theorem allModest_iff : allModest ts = true ↔ ∀ t ∈ ts, t.isModest = true := by
  induction ts with
  | nil => simp [allModest]
  | cons t ts ih => simp [allModest, ih]

def Modest (t : Ty) : Prop := t.isModest = true

variable {t u : Ty} {n : Int}

theorem isHandy_iff : t.isHandy ↔ t.isSmall ∧ t.nameFault? = none :=
  Bool.and_eq_true_iff.trans (and_congr_right' Option.isNone_iff_eq_none)

theorem modest_array : (array t n).Modest ↔ (array t n).isHandy ∧ t.Modest :=
  Bool.and_eq_true_iff

theorem modest_fields (h : t.fields? = some ts) : t.Modest ↔ t.isHandy ∧ ∀ u ∈ ts, u.Modest := by
  cases t with
  | tuple | struct =>
    cases h
    exact Bool.and_eq_true_iff.trans (and_congr_right' allModest_iff)
  | _ => cases h

theorem isSmall_of_pointer {inner : Ty} (h : t.layout = inner.layout.map Layout.pointer) :
    t.isSmall = true := by
  unfold isSmall
  rw [h]
  cases inner.layout with
  | error e => rfl
  | ok l =>
    obtain ⟨size, align⟩ := l
    cases size <;> rfl

theorem Modest.isSmall (h : t.Modest) : t.isSmall := by
  cases t with
  | int w signed pointerSized => cases w <;> rfl
  | bool | char | f32 | f64 | fnPtr | str => rfl
  | rawPtr inner m | ref inner m => exact isSmall_of_pointer rfl
  | slice elem =>
    unfold Ty.isSmall layout
    cases elem.layout <;> rfl
  | array => exact (isHandy_iff.1 (modest_array.1 h).1).1
  | tuple | struct => exact (isHandy_iff.1 ((modest_fields rfl).1 h).1).1

theorem Modest.nameFault?_eq_none : ∀ {t : Ty}, t.Modest → t.nameFault? = none
  | rawPtr inner _, h | ref inner _, h | slice inner, h => by
    have hinner : inner.Modest := h
    exact (Option.or_none ..).trans hinner.nameFault?_eq_none
  | array _ _, h => (isHandy_iff.1 (modest_array.1 h).1).2
  | tuple _, h | struct _ _ _, h => (isHandy_iff.1 ((modest_fields rfl).1 h).1).2
  | int _ _ _, _ | bool, _ | char, _ | f32, _ | f64, _ | fnPtr _, _ | str, _ => rfl

theorem Modest.fair (h : t.Modest) {e : EvalError} (he : e.shown = [.type t]) : e.Fair :=
  .of_shown (by simpa [he, Shown.fault?] using h.nameFault?_eq_none)

theorem Modest.size (h : t.Modest) (hn : t.size = .ok n) : 0 ≤ n ∧ n < Memory.maxCells := by
  have hsmall := h.isSmall
  unfold Ty.size at hn
  obtain ⟨l, hl, hn⟩ := bind_iff.1 hn
  obtain ⟨size, align⟩ := l
  cases size with
  | none => cases hn
  | some size =>
    cases hn
    simpa [Ty.isSmall, hl] using hsmall

theorem Modest.printable (h : t.Modest) (hn : t.size = .ok n) : Text.isPrintableInt n :=
  Memory.isPrintableInt_of_lt_maxCells (h.size hn).1 (h.size hn).2

theorem Modest.pointee (h : t.Modest) (hu : t.pointee = .ok u) : u.Modest := by
  cases t with
  | rawPtr inner m | ref inner m =>
    cases hu
    exact h
  | _ => cases hu

theorem Modest.fields (h : t.Modest) (hts : t.fields? = some ts) (hu : u ∈ ts) : u.Modest :=
  ((modest_fields hts).1 h).2 u hu

theorem Modest.elem (h : (array t n).Modest) : t.Modest := (modest_array.1 h).2

theorem Modest.length (h : (array t n).Modest) : Text.isPrintableInt n := by
  have hfault := h.nameFault?_eq_none
  simp only [nameFault?, fault?, Option.or_eq_none_iff] at hfault
  simpa using hfault.1.2

theorem Modest.sliceElem (h : (slice t).Modest) : t.Modest := h

theorem Modest.pointee? (h : t.Modest) (hu : t.pointee? = some u) : u.Modest :=
  h.pointee (by rw [Ty.pointee, hu])

/-! ## Errors of modest types -/

theorem blames_modest : Blames Modest EvalError.Fair :=
  ⟨.pointee?, .fields, .elem, .sliceElem, fun h => h.fair rfl, .inl rfl⟩

@[grind ←] theorem fair_layout (h : t.Modest) : Fails EvalError.Fair t.layout := blames_modest.layout t h

@[grind ←] theorem fair_offsets (h : ∀ t ∈ ts, t.Modest) : Fails EvalError.Fair (offsets ts) :=
  .andThen (blames_modest.place ts h) fun _ => .pure _

@[grind ←] theorem fair_isSized (h : t.Modest) : Fails EvalError.Fair t.isSized :=
  .andThen (fair_layout h) fun _ => .pure _

@[grind ←] theorem fair_align (h : t.Modest) : Fails EvalError.Fair t.align :=
  .andThen (fair_layout h) fun _ => .pure _

@[grind ←] theorem fair_size (h : t.Modest) : Fails EvalError.Fair t.size := by
  refine .andThen (fair_layout h) fun l => ?_
  split
  · exact .pure _
  · exact .error (h.fair rfl)

@[grind ←] theorem fair_pointee (h : t.Modest) : Fails EvalError.Fair t.pointee := by
  unfold pointee
  split
  · exact .ok _
  · exact .error (h.fair rfl)

@[grind ←] theorem fair_isFat (h : t.Modest) : Fails EvalError.Fair t.isFat := by
  unfold isFat
  split
  · rename_i hu
    exact .andThen (fair_isSized (h.pointee? hu)) fun _ => .pure _
  · exact .ok _

@[grind ←] theorem fair_isPrimitive (h : t.Modest) : Fails EvalError.Fair t.isPrimitive := by
  have := fair_isFat h
  unfold isPrimitive
  grind -ring -linarith

@[grind ←] theorem fair_kind (h : t.Modest) : Fails EvalError.Fair t.kind := by
  unfold kind
  split
  iterate 6 exact .ok _
  · split
    · rename_i hu
      refine .andThen (fair_isSized (h.pointee? hu)) fun sized => ?_
      split
      · exact .pure _
      · exact .error (h.fair rfl)
    · exact .error (h.fair rfl)

/-! ## Sized types -/

/-- A type with no size for all its values. -/
def Unsized (t : Ty) : Prop := t.isSized = .ok false

theorem not_unsized_of_size (h : t.size = .ok n) : ¬ t.Unsized := by
  intro hunsized
  unfold Unsized isSized at hunsized
  unfold Ty.size at h
  obtain ⟨l, hl, hsize⟩ := bind_iff.1 h
  rw [hl] at hunsized
  obtain ⟨size, align⟩ := l
  cases size with
  | none => cases hsize
  | some size => cases hunsized

theorem layout_of_unsized (h : t.Unsized) : ∃ l, t.layout = .ok l ∧ l.size = none := by
  obtain ⟨l, hl, hsize⟩ := bind_iff.1 h
  refine ⟨l, hl, ?_⟩
  obtain ⟨size, align⟩ := l
  cases size with
  | none => rfl
  | some size => cases hsize

theorem isFat_of_unsized (hu : t.pointee = .ok u) (hunsized : u.Unsized) : t.isFat = .ok true := by
  have hsized : u.isSized = .ok false := hunsized
  cases t with
  | rawPtr inner m | ref inner m =>
    cases hu
    simp only [isFat, pointee?, hsized]
    rfl
  | _ => cases hu

theorem size_of_place {offset : Int} {align : Nat} (h : place ts offset align = .ok whole) (ht : t ∈ ts)
    (hunsized : t.Unsized) : whole.2.size = none := by
  induction ts generalizing offset align whole with
  | nil => cases ht
  | cons u ts ih =>
    unfold place at h
    obtain ⟨l, hl, h⟩ := bind_iff.1 h
    dsimp only at h
    split at h
    · split at h
      · cases h
        rfl
      · cases h
    · rename_i size hsize
      obtain ⟨rest, hrest, ⟨⟩⟩ := bind_iff.1 h
      rcases List.mem_cons.1 ht with rfl | ht
      · obtain ⟨l', hl', hnone⟩ := layout_of_unsized hunsized
        rw [hl] at hl'
        cases hl'
        rw [hsize] at hnone
        cases hnone
      · have hsize' : rest.2.size = none := ih hrest ht
        exact hsize'

theorem not_unsized_of_field (hts : t.fields? = some ts) (ht : ¬ t.Unsized) {offsets : List Int}
    (hoffsets : Ty.offsets ts = .ok offsets) (hu : u ∈ ts) : ¬ u.Unsized := by
  intro hunsized
  obtain ⟨whole, hwhole, -⟩ := bind_iff.1 hoffsets
  have hsize := size_of_place hwhole hu hunsized
  refine ht ?_
  unfold Unsized isSized
  cases t with
  | tuple fields | struct name fields dropGlue =>
    cases hts
    unfold layout
    rw [hwhole]
    exact congrArg (fun size : Option Int => Except.ok size.isSome) hsize
  | _ => cases hts

/-! ## Extents -/

theorem length_of_place {offset : Int} {align : Nat} (h : place ts offset align = .ok whole) :
    whole.1.length = ts.length := by
  induction ts generalizing offset align whole with
  | nil =>
    unfold place at h
    cases h
    rfl
  | cons u ts ih =>
    unfold place at h
    obtain ⟨l, hl, h⟩ := bind_iff.1 h
    dsimp only at h
    split at h
    · split at h
      · rename_i hempty
        cases h
        rw [List.isEmpty_iff.1 hempty]
        rfl
      · cases h
    · obtain ⟨rest, hrest, ⟨⟩⟩ := bind_iff.1 h
      exact congrArg (· + 1) (ih hrest)

/-- An extent that is found has a size. -/
def Extends (D : Prop) (e : Except Failure (Option Int × Nat)) : Prop :=
  Spares D e ∧ ∀ r, e = .ok r → r.1.isSome = true

variable {D : Prop}

theorem extends_ok (size : Int) (align : Nat) : Extends D (.ok (some size, align)) :=
  ⟨.ok _, by rintro _ ⟨⟩; rfl⟩

theorem Extends.check {α : Type} {e : Except EvalError α} {f : α → Except Failure (Option Int × Nat)}
    (he : Fails EvalError.Fair e) (h : ∀ a, e = .ok a → Extends D (f a)) :
    Extends D ((liftM e : Except Failure α) >>= f) := by
  cases hresult : e with
  | ok a => exact h a hresult
  | error x => exact ⟨.error (he x hresult), by rintro _ ⟨⟩⟩

theorem extends_size (h : t.Modest) : Extends D (do
    let size ← t.size
    let align ← t.align
    return (some size, align)) :=
  .check (fair_size h) fun size _ => .check (fair_align h) fun align _ => extends_ok size align

theorem extends_aggregate {fields : List Ty} {length : Option Int} (h : ∀ t ∈ fields, t.Modest)
    (hwhole : place fields 0 1 = .ok whole)
    (hlast : whole.2.size = none → fields ≠ [] → Extends D (lastExtent length fields)) :
    Extends D (aggregateExtent length whole.2 fields) := by
  unfold aggregateExtent
  cases hsize : whole.2.size with
  | some size => exact extends_ok size _
  | none =>
    have hfields : fields ≠ [] := by
      rintro rfl
      unfold place at hwhole
      cases hwhole
      cases hsize
    obtain ⟨hspares, hsome⟩ := hlast hsize hfields
    refine .check (fair_offsets h) fun starts hstarts => ?_
    obtain ⟨whole', hwhole', ⟨⟩⟩ := bind_iff.1 hstarts
    cases hextent : lastExtent length fields with
    | error c =>
      refine ⟨fun c' hc' => ?_, by rintro _ ⟨⟩⟩
      cases hc'
      exact hspares c hextent
    | ok r =>
      obtain ⟨tail, tailAlign⟩ := r
      obtain ⟨tail, rfl⟩ := Option.isSome_iff_exists.1 (hsome _ hextent)
      -- there are as many offsets as fields, so there is a last one
      have hstart : whole'.1.getLast?.isSome := by
        rw [List.getLast?_isSome, ← List.length_pos_iff, length_of_place hwhole']
        exact List.length_pos_iff.2 hfields
      obtain ⟨start, hstart⟩ := Option.isSome_iff_exists.1 hstart
      rw [hstart]
      exact extends_ok _ _

mutual

/-- With a length, the extent of any value is found. -/
theorem extends_some (n : Int) : ∀ t : Ty, t.Modest → Extends D (extent (some n) t)
  | slice elem, h => by
    unfold extent
    exact .check (fair_size h.sliceElem) fun size _ =>
      .check (fair_align h.sliceElem) fun align _ => extends_ok _ _
  | str, _ => by
    unfold extent
    exact extends_ok n 1
  | tuple fields, h | struct name fields dropGlue, h => by
    have hmodest (t : Ty) (ht : t ∈ fields) : t.Modest := h.fields rfl ht
    unfold extent
    refine .check (fair_layout h) fun l hl => ?_
    unfold layout at hl
    obtain ⟨whole, hwhole, ⟨⟩⟩ := bind_iff.1 hl
    exact extends_aggregate hmodest hwhole fun _ hfields => extends_last n fields hfields hmodest
  | int _ _ _, h | bool, h | char, h | f32, h | f64, h | rawPtr _ _, h | ref _ _, h | fnPtr _, h
  | array _ _, h => by
    unfold extent
    exact extends_size h

theorem extends_last (n : Int) : ∀ ts : List Ty, ts ≠ [] → (∀ t ∈ ts, t.Modest) →
    Extends D (lastExtent (some n) ts)
  | [], hne, _ => absurd rfl hne
  | [t], _, h => by
    unfold lastExtent
    exact extends_some n t (h t (by simp))
  | _ :: u :: ts, _, h => by
    unfold lastExtent
    exact extends_last n (u :: ts) (by simp) fun t ht => h t (by simp [List.mem_cons.1 ht])

end

theorem extends_none (hmodest : t.Modest) (h : t.isSized = .ok true) : Extends D (extent none t) := by
  obtain ⟨l, hl, hsized⟩ := bind_iff.1 h
  cases t with
  | slice elem =>
    unfold layout at hl
    obtain ⟨inner, -, ⟨⟩⟩ := bind_iff.1 hl
    cases hsized
  | str =>
    cases hl
    cases hsized
  | tuple fields | struct name fields dropGlue =>
    unfold extent
    rw [hl]
    unfold layout at hl
    obtain ⟨whole, hwhole, ⟨⟩⟩ := bind_iff.1 hl
    refine extends_aggregate (fun t ht => hmodest.fields rfl ht) hwhole fun hnone => ?_
    rw [hnone] at hsized
    cases hsized
  | int | bool | char | f32 | f64 | rawPtr | ref | fnPtr | array =>
    unfold extent
    exact extends_size hmodest

end Ty

/-- What the errors of a program show of it: the names of its functions, and its assertions. -/
def Program.shown (p : Program) : List Json :=
  p.functions.flatMap fun f => f.name :: f.blocks.filterMap fun b => b.terminator.message?

/-- Every type that a program mentions is modest, and its names and messages can be written. -/
structure Program.Modest (p : Program) : Prop where
  types : ∀ t ∈ p.types, t.isModest = true
  shown : ∀ v ∈ p.shown, v.isPrintable = true

instance (p : Program) : Decidable p.Modest :=
  decidable_of_iff ((∀ t ∈ p.types, t.isModest = true) ∧ ∀ v ∈ p.shown, v.isPrintable = true)
    ⟨fun h => ⟨h.1, h.2⟩, fun h => ⟨h.types, h.shown⟩⟩

namespace Program.Modest

variable {p : Program} {f : Function} (h : p.Modest) (hf : f ∈ p.functions)
include h hf

theorem name : f.name.isPrintable :=
  h.shown _ (List.mem_flatMap.2 ⟨f, hf, List.mem_cons_self⟩)

theorem message {b : Block} (hb : b ∈ f.blocks) {message : Json} (hm : message ∈ b.terminator.message?) :
    message.isPrintable = true :=
  h.shown _ (List.mem_flatMap.2 ⟨f, hf, List.mem_cons_of_mem _ (List.mem_filterMap.2 ⟨b, hb, hm⟩)⟩)

end Program.Modest
end SymExec

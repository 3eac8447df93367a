import SymExec.Proofs.Run
import SymExec.Ty

/-!
# Extents of unsized values

The extent of a value is found from the outside to the inside: an unsized aggregate is its front, whose
last offset was computed for a tail without a size, and what the tail turns out to be. A layout goes from
left to right. Both come to the same: a value whose unsized part has `n` elements has the layout of the
type with an array of `n` elements in the place of that part (`Ty.extent_eq_layout`).
-/
namespace SymExec.Ty

open Run

variable {k : Nat} {size : Int} {ts : List Ty} {starts : List Int} {e : EvalError}

mutual

/-- The type of a value whose unsized part has `n` elements: an array takes the place of the slice or text
at the end of the chain of last fields. -/
def withLength (n : Int) : Ty → Ty
  | slice elem => array elem n
  | str => array u8 n
  | tuple fields => tuple (withLengthLast n fields)
  | struct name fields dropGlue => struct name (withLengthLast n fields) dropGlue
  | t => t

def withLengthLast (n : Int) : List Ty → List Ty
  | [] => []
  | [t] => [t.withLength n]
  | t :: ts => t :: withLengthLast n ts

end

variable {t : Ty} {n offset : Int} {align : Nat}

/-! ## Fields -/

theorem place_of_error (ts : List Ty) (h : t.layout = .error e) :
    place (t :: ts) offset align = .error e := by
  rw [place, h]
  rfl

theorem place_of_sized (ts : List Ty) (h : t.layout = .ok ⟨some size, k⟩) :
    place (t :: ts) offset align = (do
      let rest ← place ts (alignUp offset k + size) (max align k)
      return (alignUp offset k :: rest.1, rest.2)) := by
  rw [place, h]
  rfl

theorem place_of_unsized (ts : List Ty) (h : t.layout = .ok ⟨none, k⟩) :
    place (t :: ts) offset align = if ts.isEmpty then .ok ([alignUp offset k], ⟨none, max align k⟩)
      else .error .innerUnsizedField := by
  rw [place, h]
  rfl

/-! ## Sized types -/

mutual

/-- A sized type has no unsized part. -/
theorem withLength_of_sized : ∀ {t : Ty} {size : Int} {k : Nat},
    t.layout = .ok ⟨some size, k⟩ → t.withLength n = t
  | slice elem, _, _, h => by
    unfold layout at h
    obtain ⟨l, -, ⟨⟩⟩ := bind_iff.1 h
  | str, _, _, h => by
    unfold layout at h
    cases h
  | tuple fields, _, _, h => by
    unfold layout at h
    obtain ⟨⟨starts, whole⟩, hwhole, ⟨⟩⟩ := bind_iff.1 h
    rw [withLength, withLengthLast_of_sized hwhole]
  | struct name fields dropGlue, _, _, h => by
    unfold layout at h
    obtain ⟨⟨starts, whole⟩, hwhole, ⟨⟩⟩ := bind_iff.1 h
    rw [withLength, withLengthLast_of_sized hwhole]
  | int _ _ _, _, _, _ | bool, _, _, _ | char, _, _, _ | f32, _, _, _ | f64, _, _, _
  | rawPtr _ _, _, _, _ | ref _ _, _, _, _ | fnPtr _, _, _, _ | array _ _, _, _, _ => by
    simp only [withLength]

theorem withLengthLast_of_sized : ∀ {ts : List Ty} {offset : Int} {align : Nat} {starts : List Int}
    {size : Int} {k : Nat}, place ts offset align = .ok (starts, ⟨some size, k⟩) →
    withLengthLast n ts = ts
  | [], _, _, _, _, _, _ => by rw [withLengthLast]
  | [t], _, _, _, _, _, h => by
    unfold place at h
    obtain ⟨⟨size, k⟩, hlayout, h⟩ := bind_iff.1 h
    cases size with
    | none => cases h
    | some size => rw [withLengthLast, withLength_of_sized hlayout]
  | t :: u :: ts, _, _, _, _, _, h => by
    unfold place at h
    obtain ⟨⟨size, k⟩, hlayout, h⟩ := bind_iff.1 h
    cases size with
    | none => cases h
    | some size =>
      obtain ⟨⟨starts, whole⟩, hrest, ⟨⟩⟩ := bind_iff.1 h
      rw [withLengthLast, withLengthLast_of_sized hrest]
      simp

end

/-! ## Types without a layout -/

theorem isEmpty_withLengthLast (n : Int) (t : Ty) (ts : List Ty) :
    (withLengthLast n (t :: ts)).isEmpty = false := by
  cases ts <;> simp [withLengthLast]

mutual

theorem layout_withLength_of_error : ∀ {t : Ty} {e : EvalError}, t.layout = .error e →
    (t.withLength n).layout = .error e
  | slice elem, e, h => by
    unfold layout at h
    obtain h | ⟨l, -, ⟨⟩⟩ := except_bind_eq_error.1 h
    rw [withLength, layout, h]
    rfl
  | str, _, h => by
    unfold layout at h
    cases h
  | tuple fields, _, h | struct name fields dropGlue, _, h => by
    unfold layout at h
    obtain h | ⟨whole, -, ⟨⟩⟩ := except_bind_eq_error.1 h
    rw [withLength, layout, place_withLengthLast_of_error h]
    rfl
  | int _ _ _, _, h | bool, _, h | char, _, h | f32, _, h | f64, _, h | rawPtr _ _, _, h
  | ref _ _, _, h | fnPtr _, _, h | array _ _, _, h => by
    simp only [withLength]
    exact h

theorem place_withLengthLast_of_error : ∀ {ts : List Ty} {offset : Int} {align : Nat} {e : EvalError},
    place ts offset align = .error e → place (withLengthLast n ts) offset align = .error e
  | [], _, _, _, h => by
    rw [withLengthLast]
    exact h
  | [t], _, _, _, h => by
    rw [withLengthLast]
    cases hlayout : t.layout with
    | error c =>
      rw [place_of_error [] hlayout] at h
      cases h
      exact place_of_error [] (layout_withLength_of_error hlayout)
    | ok l =>
      obtain ⟨size, k⟩ := l
      cases size with
      | none =>
        rw [place_of_unsized [] hlayout] at h
        cases h
      | some size => rw [withLength_of_sized hlayout, h]
  | t :: u :: ts, _, _, _, h => by
    rw [withLengthLast]
    · cases hlayout : t.layout with
      | error c =>
        rw [place_of_error _ hlayout] at h ⊢
        exact h
      | ok l =>
        obtain ⟨size, k⟩ := l
        cases size with
        | none =>
          rw [place_of_unsized _ hlayout] at h ⊢
          rw [isEmpty_withLengthLast]
          exact h
        | some size =>
          rw [place_of_sized _ hlayout] at h ⊢
          obtain h | ⟨rest, -, ⟨⟩⟩ := except_bind_eq_error.1 h
          rw [place_withLengthLast_of_error h]
          rfl
    · simp

end

/-! ## Unsized types -/

theorem eq_of_layout_unsized (h : t.layout = .ok ⟨none, k⟩) :
    (∃ elem, t = slice elem) ∨ t = str ∨ ∃ ts, t.fields? = some ts := by
  cases t with
  | slice elem => exact .inl ⟨elem, rfl⟩
  | str => exact .inr (.inl rfl)
  | tuple fields | struct name fields dropGlue => exact .inr (.inr ⟨fields, rfl⟩)
  | int | bool | char | f32 | f64 | fnPtr =>
    unfold layout at h
    cases h
  | rawPtr pointee _ | ref pointee _ | array elem length =>
    unfold layout at h
    obtain ⟨⟨size, align⟩, -, h⟩ := bind_iff.1 h
    cases size <;> cases h

theorem aggregateExtent_of_ok {tail : Nat} {start : Int}
    (hplace : place ts 0 1 = .ok (starts, ⟨none, k⟩)) (hstart : starts.getLast? = some start)
    (hlast : lastExtent (some n) ts = .ok (some size, tail)) :
    aggregateExtent (some n) ⟨none, k⟩ ts
      = .ok (some (alignUp (start + size) (max k tail)), max k tail) := by
  rw [aggregateExtent, offsets, hplace, hlast]
  simp only [bind, Except.bind, liftM, monadLift, MonadLift.monadLift, EvalError.lift, pure, Except.pure,
    hstart]

theorem aggregateExtent_of_error {e : Failure} (hplace : place ts 0 1 = .ok (starts, ⟨none, k⟩))
    (hlast : lastExtent (some n) ts = .error e) :
    aggregateExtent (some n) ⟨none, k⟩ ts = .error e := by
  rw [aggregateExtent, offsets, hplace, hlast]
  rfl

mutual

theorem extent_of_unsized : ∀ {t : Ty} {k : Nat}, t.layout = .ok ⟨none, k⟩ →
    (∃ e, extent (some n) t = .error (.error e) ∧ (t.withLength n).layout = .error e) ∨
    ∃ size, extent (some n) t = .ok (some size, k) ∧ (t.withLength n).layout = .ok ⟨some size, k⟩
  | slice elem, _, h => by
    unfold layout at h
    obtain ⟨⟨size, k⟩, hlayout, ⟨⟩⟩ := bind_iff.1 h
    rw [extent, withLength, layout, Ty.size, Ty.align, hlayout]
    cases size with
    | none => exact .inl ⟨_, rfl, rfl⟩
    | some size => exact .inr ⟨_, rfl, rfl⟩
  | str, _, h => by
    unfold layout at h
    cases h
    refine .inr ⟨n, by rw [extent], ?_⟩
    rw [withLength, layout, layout]
    change Except.ok (Layout.mk (some (1 * n)) 1) = _
    rw [Int.one_mul]
  | tuple fields, _, h | struct name fields dropGlue, _, h => by
    rw [extent, h, withLength, layout]
    unfold layout at h
    obtain ⟨⟨starts, whole⟩, hplace, ⟨⟩⟩ := bind_iff.1 h
    obtain ⟨start, hstart, hlast⟩ := lastExtent_of_unsized hplace
    change (∃ e, aggregateExtent _ _ _ = _ ∧ _) ∨ ∃ size, aggregateExtent _ _ _ = _ ∧ _
    rcases hlast with ⟨e, hextent, hsized⟩ | ⟨size, tail, hextent, hle, hsized⟩
    · rw [aggregateExtent_of_error hplace hextent, hsized]
      exact .inl ⟨e, rfl, rfl⟩
    · rw [aggregateExtent_of_ok hplace hstart hextent, Nat.max_eq_left hle, hsized]
      exact .inr ⟨_, rfl, rfl⟩
  | int _ _ _, _, h | bool, _, h | char, _, h | f32, _, h | f64, _, h | fnPtr _, _, h
  | rawPtr _ _, _, h | ref _ _, _, h | array _ _, _, h => by
    rcases eq_of_layout_unsized h with ⟨_, ⟨⟩⟩ | ⟨⟨⟩⟩ | ⟨_, ⟨⟩⟩

/-- The last field of an unsized aggregate stands where it would stand with a size. -/
theorem lastExtent_of_unsized : ∀ {ts : List Ty} {offset : Int} {align : Nat} {starts : List Int}
    {k : Nat}, place ts offset align = .ok (starts, ⟨none, k⟩) →
    ∃ start, starts.getLast? = some start ∧
      ((∃ e, lastExtent (some n) ts = .error (.error e) ∧
        place (withLengthLast n ts) offset align = .error e) ∨
      ∃ size tail, lastExtent (some n) ts = .ok (some size, tail) ∧ tail ≤ k ∧
        place (withLengthLast n ts) offset align = .ok (starts, ⟨some (alignUp (start + size) k), k⟩))
  | [], _, _, _, _, h => by
    unfold place at h
    cases h
  | [t], offset, align, _, _, h => by
    rw [lastExtent, withLengthLast]
    unfold place at h
    obtain ⟨⟨size, k⟩, hlayout, h⟩ := bind_iff.1 h
    cases size with
    | some size =>
      obtain ⟨rest, hrest, h⟩ := bind_iff.1 h
      rw [place] at hrest
      cases hrest
      cases h
    | none =>
      cases h
      refine ⟨alignUp offset k, rfl, ?_⟩
      rcases extent_of_unsized hlayout with ⟨e, hextent, hsized⟩ | ⟨size, hextent, hsized⟩
      · exact .inl ⟨e, hextent, place_of_error [] hsized⟩
      · refine .inr ⟨size, k, hextent, Nat.le_max_right _ _, ?_⟩
        rw [place_of_sized [] hsized, place]
        rfl
  | t :: u :: ts, offset, align, _, _, h => by
    rw [lastExtent, withLengthLast]
    · unfold place at h
      obtain ⟨⟨size, k⟩, hlayout, h⟩ := bind_iff.1 h
      cases size with
      | none => cases h
      | some size =>
        obtain ⟨⟨starts, whole⟩, hrest, ⟨⟩⟩ := bind_iff.1 h
        obtain ⟨start, hstart, hlast⟩ := lastExtent_of_unsized hrest
        have hstart' : (alignUp offset k :: starts).getLast? = some start := by
          rw [List.getLast?_cons, hstart]
          rfl
        refine ⟨start, hstart', ?_⟩
        rw [place_of_sized _ hlayout]
        rcases hlast with ⟨e, hextent, hsized⟩ | ⟨size, tail, hextent, hle, hsized⟩
        · rw [hsized]
          exact .inl ⟨e, hextent, rfl⟩
        · rw [hsized]
          exact .inr ⟨size, tail, hextent, hle, rfl⟩
    · simp
    · simp

end

/-! ## All types -/

theorem extent_of_sized (h : t.layout = .ok ⟨some size, k⟩) (length : Option Int) :
    t.extent length = .ok (some size, k) := by
  cases t with
  | slice elem =>
    unfold layout at h
    obtain ⟨l, -, ⟨⟩⟩ := bind_iff.1 h
  | str =>
    unfold layout at h
    cases h
  | tuple fields | struct name fields dropGlue =>
    rw [extent, h]
    unfold aggregateExtent
    rfl
  | int | bool | char | f32 | f64 | rawPtr | ref | fnPtr | array =>
    simp only [extent, Ty.size, Ty.align, h]
    rfl

theorem extent_of_error (h : t.layout = .error e) (length : Option Int) :
    t.extent length = .error (.error e) := by
  cases t with
  | slice elem =>
    unfold layout at h
    obtain h | ⟨l, -, ⟨⟩⟩ := except_bind_eq_error.1 h
    rw [extent, Ty.size, h]
    rfl
  | str =>
    unfold layout at h
    cases h
  | tuple fields | struct name fields dropGlue =>
    rw [extent, h]
    rfl
  | int | bool | char | f32 | f64 | rawPtr | ref | fnPtr | array =>
    simp only [extent, Ty.size, h]
    rfl

theorem extent_cases (t : Ty) (n : Int) :
    (∃ e, t.extent (some n) = .error (.error e) ∧ (t.withLength n).layout = .error e) ∨
    ∃ size k, t.extent (some n) = .ok (some size, k) ∧
      (t.withLength n).layout = .ok ⟨some size, k⟩ := by
  cases h : t.layout with
  | error e => exact .inl ⟨e, extent_of_error h _, layout_withLength_of_error h⟩
  | ok l =>
    obtain ⟨size, k⟩ := l
    cases size with
    | some size => exact .inr ⟨size, k, extent_of_sized h _, by rw [withLength_of_sized h, h]⟩
    | none =>
      rcases extent_of_unsized h with hfails | ⟨size, hfound⟩
      · exact .inl hfails
      · exact .inr ⟨size, k, hfound⟩

/-- The extent of a value whose unsized part has `n` elements is the size and alignment of the type with
an array of `n` elements in the place of that part, and it is not found if and only if that type has no
layout. A sized type has no such part, and its values have its own size and alignment. -/
theorem extent_eq_layout (t : Ty) (n : Int) :
    (∀ l, (t.withLength n).layout = .ok l →
      ∃ size, l.size = some size ∧ t.extent (some n) = .ok (some size, l.align)) ∧
    (∀ e, (t.withLength n).layout = .error e → t.extent (some n) = .error (.error e)) ∧
    ∀ size align, t.layout = .ok ⟨some size, align⟩ →
      t.withLength n = t ∧ t.extent (some n) = .ok (some size, align) := by
  refine ⟨fun l hl => ?_, fun e he => ?_, fun size align h =>
    ⟨withLength_of_sized h, extent_of_sized h _⟩⟩
  · rcases extent_cases t n with ⟨e, -, hlayout⟩ | ⟨size, k, hextent, hlayout⟩
    · cases hlayout.symm.trans hl
    · cases hlayout.symm.trans hl
      exact ⟨size, rfl, hextent⟩
  · rcases extent_cases t n with ⟨c, hextent, hlayout⟩ | ⟨size, k, -, hlayout⟩
    · cases hlayout.symm.trans he
      exact hextent
    · cases hlayout.symm.trans he

/-- A row of three characters behind a number, in a struct with a byte before them; a text of three bytes
behind a number; and a slice of slices, which has no layout at any length. -/
theorem extent_eq_layout_sample :
    let row := struct (.str "Row") [u8, tuple [int .w16 false false, slice char]] false
    let note := tuple [usize, str]
    (row.withLength 3).layout = .ok ⟨some 20, 4⟩ ∧ row.extent (some 3) = .ok (some 20, 4) ∧
    (note.withLength 3).layout = .ok ⟨some 16, 8⟩ ∧ note.extent (some 3) = .ok (some 16, 8) ∧
    ((slice (slice u8)).withLength 3).layout = .error (.unsizedType (slice u8)) ∧
    (slice (slice u8)).extent (some 3) = .error (.error (.unsizedType (slice u8))) ∧
    usize.layout = .ok ⟨some 8, 8⟩ ∧ usize.extent (some 3) = .ok (some 8, 8) := by
  have hrow : ((struct (.str "Row") [u8, tuple [int .w16 false false, slice char]] false).withLength
      3).layout = .ok ⟨some 20, 4⟩ := by rfl
  have hnote : ((tuple [usize, str]).withLength 3).layout = .ok ⟨some 16, 8⟩ := by rfl
  have hnested : ((slice (slice u8)).withLength 3).layout = .error (.unsizedType (slice u8)) := by rfl
  have hsized : usize.layout = .ok ⟨some 8, 8⟩ := by rfl
  obtain ⟨_, ⟨⟩, hrowExtent⟩ := (extent_eq_layout _ 3).1 _ hrow
  obtain ⟨_, ⟨⟩, hnoteExtent⟩ := (extent_eq_layout _ 3).1 _ hnote
  exact ⟨hrow, hrowExtent, hnote, hnoteExtent, hnested, (extent_eq_layout _ 3).2.1 _ hnested, hsized,
    ((extent_eq_layout _ 3).2.2 _ _ hsized).2⟩

end SymExec.Ty

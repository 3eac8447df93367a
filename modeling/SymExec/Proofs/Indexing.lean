import SymExec.Proofs.Parts

/-!
# Elements by index

An index projection takes an array, or a slice whose length is known, and a number below its length, and
moves the pointer by so many elements; the machine is left as it was. A number that is the length or
more is refused, and the whole place with it (`Machine.elements_below_length`). The number is not looked
at from below: one that is read from a local is never negative, but one that is written in the program
may be, and its element lies before the array (`Machine.elements_below_length_negative`).
-/
namespace SymExec

open Run

/-! ## Moved pointers -/

/-- Offsets are taken modulo the number of addresses. -/
theorem Pointer.offsetBy_eq_emod (id x : Nat) (d : Int) :
    ∃ y : Nat, (known id x).offsetBy d = .ok (known id y) ∧ (y : Int) = (x + d) % 2 ^ 64 := by
  refine ⟨(BitVec.ofInt 64 (x + d)).toNat, rfl, ?_⟩
  rw [BitVec.toNat_ofInt, Int.toNat_of_nonneg (Int.emod_nonneg _ (by decide))]
  rfl

namespace Machine

variable {m : Machine} {f : Frame} {ref : PlaceRef} {q : Projection} {id x : Nat} {elem : Ty}
  {n k size : Int}

/-! ## What an index goes by -/

def IsIndex : Projection → Prop
  | .constIndex _ | .index _ => True
  | .deref | .field _ => False

/-- The number that an index projection names: one of the program, or the word that a local holds. -/
inductive Names (m : Machine) (f : Frame) : Projection → Int → Prop where
  | constIndex (i : Int) : Names m f (.constIndex i) i
  | index {base : Int} {p : Pointer} {ty : Ty} {pattern : BitVec 128}
    (hlocal : localAt f base = .ok (p, ty)) (hread : readScalar p .usize m = .ok (.bits pattern) m) :
    Names m f (.index base) (pattern.setWidth 64).toNat

/-- A place of so many elements of a type: an array, or a slice with its length. -/
inductive Holds : PlaceRef → Ty → Int → Prop where
  | array (p : Pointer) (length : Option Scalar) (elem : Ty) (n : Int) :
    Holds ⟨p, .array elem n, length⟩ elem n
  | slice (p : Pointer) {length : Option Scalar} (elem : Ty) {n : Nat} (h : knownLength length = .ok n) :
    Holds ⟨p, .slice elem, length⟩ elem n

/-- All that an index projection goes by: the number that it names, and a place at a known address that
has `n` elements of a known size. -/
structure Finds (m : Machine) (ref : PlaceRef) (q : Projection) (id x : Nat) (elem : Ty)
    (n k size : Int) : Prop where
  names : ∃ f rest, m.stack = f :: rest ∧ Names m f q k
  ptr : ref.ptr = .known id x
  holds : Holds ref elem n
  size : elem.size = .ok size

/-- A number that is read is not negative. -/
theorem Names.eq_constIndex (h : Names m f q k) (hk : k < 0) : q = .constIndex k := by
  cases h with
  | constIndex => rfl
  | index => omega

/-! ## Elements -/

theorem element_of_holds (h : Holds ref elem n) (i : Int) :
    element ref i = elementOf ref.ptr elem n i := by
  cases h with
  | array => rfl
  | slice p elem hn =>
    simp only [element, hn]
    rfl

theorem elementOf_outside (p : Pointer) (elem : Ty) (h : n ≤ k) :
    elementOf p elem n k = .error (.indexOutside n k) := by
  unfold elementOf
  rw [if_pos h]
  rfl

theorem elementOf_inside (id x : Nat) (hsize : elem.size = .ok size) (h : k < n) :
    ∃ y : Nat, elementOf (.known id x) elem n k = .ok ⟨.known id y, elem, none⟩ ∧
      (y : Int) = (x + k * size) % 2 ^ 64 := by
  obtain ⟨y, hmove, hy⟩ := Pointer.offsetBy_eq_emod id x (k * size)
  refine ⟨y, ?_, hy⟩
  unfold elementOf
  rw [if_neg (by omega)]
  exact bind_iff.2 ⟨size, hsize, bind_iff.2 ⟨_, hmove, rfl⟩⟩

theorem element_cases (ref : PlaceRef) (k : Int) :
    (∃ id x elem n size, ref.ptr = .known id x ∧ Holds ref elem n ∧ elem.size = .ok size) ∨
      ∃ e, element ref k = .error e := by
  cases helement : element ref k with
  | error e => exact .inr ⟨e, rfl⟩
  | ok next =>
    have hholds : ∃ elem n, Holds ref elem n := by
      obtain ⟨p, ty, length⟩ := ref
      cases ty with
      | array elem n => exact ⟨elem, n, .array p length elem n⟩
      | slice elem =>
        obtain ⟨n, hn, -⟩ := bind_iff.1 helement
        exact ⟨elem, n, .slice p elem hn⟩
      | _ => cases helement
    obtain ⟨elem, n, hholds⟩ := hholds
    rw [element_of_holds hholds] at helement
    unfold elementOf at helement
    split at helement
    · cases helement
    · obtain ⟨size, hsize, helement⟩ := bind_iff.1 helement
      obtain ⟨r, hr, -⟩ := bind_iff.1 helement
      refine .inl ?_
      cases hptr : ref.ptr with
      | known id x => exact ⟨id, x, elem, n, size, rfl, hholds, hsize⟩
      | symbolic =>
        rw [hptr] at hr
        cases hr

theorem row_within {x k n size : Int} (hx : 0 ≤ x) (hk : 0 ≤ k) (hlt : k < n) (hsize : 0 ≤ size)
    (hend : x + n * size < 2 ^ 64) :
    (x + k * size) % 2 ^ 64 = x + k * size ∧ x ≤ x + k * size ∧ x + k * size + size ≤ x + n * size := by
  have hlow : 0 ≤ k * size := Int.mul_nonneg hk hsize
  have hhigh : k * size + size ≤ n * size :=
    calc k * size + size = (k + 1) * size := by rw [Int.add_mul, Int.one_mul]
      _ ≤ n * size := Int.mul_le_mul_of_nonneg_right hlt hsize
  exact ⟨Int.emod_eq_of_lt (by omega) (by omega), by omega, by omega⟩

/-! ## Index projections -/

theorem project_of_names (h : Names m f q k) (ref : PlaceRef) :
    project f ref q m = (liftM (element ref k) : Run Machine PlaceRef) m := by
  cases h with
  | constIndex i => rfl
  | index hlocal hread =>
    have hfound : (liftM (localAt f _) : Run Machine (Pointer × Ty)) m = .ok _ m :=
      of_eq_ok.2 ⟨lift_eq_ok.2 hlocal, rfl⟩
    exact (bind_of_ok hfound).trans (bind_of_ok hread)

theorem project_cases (f : Frame) (ref : PlaceRef) (hq : IsIndex q) (m : Machine) :
    (∃ k, Names m f q k) ∨ ∃ e, project f ref q m = .error (.error e) m := by
  cases q with
  | deref | field => exact hq.elim
  | constIndex i => exact .inl ⟨i, .constIndex i⟩
  | index base =>
    cases hlocal : localAt f base with
    | error e =>
      have hfails : (liftM (localAt f base) : Run Machine (Pointer × Ty)) m = .error (.error e) m := by
        rw [hlocal]
        rfl
      exact .inr ⟨e, bind_of_error hfails⟩
    | ok x =>
      have hfound : (liftM (localAt f base) : Run Machine (Pointer × Ty)) m = .ok x m :=
        of_eq_ok.2 ⟨lift_eq_ok.2 hlocal, rfl⟩
      have hread : readScalar x.1 .usize m
          = (liftM (m.memory.readScalar x.1 8 .u64 8) : Run Machine Scalar) m := rfl
      cases hscalar : m.memory.readScalar x.1 8 .u64 8 with
      | error e =>
        rw [hscalar] at hread
        exact .inr ⟨e, (bind_of_ok hfound).trans (bind_of_error hread)⟩
      | ok v =>
        rw [hscalar] at hread
        cases v with
        | bits pattern => exact .inl ⟨_, .index hlocal hread⟩
        | ptr | undef | cells => exact .inr ⟨_, (bind_of_ok hfound).trans (bind_of_ok hread)⟩

/-! ## Places -/

/-- What is known of a place holds of the innermost frame. -/
theorem stack_of_evalPlace {place : Place} (h : evalPlace place m = .ok ref m) :
    ∃ f rest, m.stack = f :: rest := by
  obtain ⟨f, m', hframe, -⟩ := bind_eq_ok.1 h
  cases hstack : m.stack with
  | nil =>
    have hthrow : frame m = .error .crash m := by
      refine (bind_of_ok (getThe_apply m)).trans ?_
      simp only [hstack]
      rfl
    rw [hthrow] at hframe
    cases hframe
  | cons f rest => exact ⟨f, rest, rfl⟩

/-- A place is found from where the first of its projections lead. -/
theorem evalPlace_append {base : Int} {pre : List Projection} {rest : List Frame}
    (hstack : m.stack = f :: rest) (h : evalPlace ⟨base, pre⟩ m = .ok ref m) (post : List Projection) :
    evalPlace ⟨base, pre ++ post⟩ m = post.foldlM (project f) ref m := by
  obtain ⟨f', m1, hframe, h⟩ := bind_eq_ok.1 h
  cases (frame_of_stack hstack).symm.trans hframe
  obtain ⟨x, m2, hlocal, h⟩ := bind_eq_ok.1 h
  refine (bind_of_ok hframe).trans ((bind_of_ok hlocal).trans ?_)
  simp only [List.foldlM_append]
  exact bind_of_ok h

theorem foldlM_project_of_error {e : Failure} (h : project f ref q m = .error e m)
    (post : List Projection) : (q :: post).foldlM (project f) ref m = .error e m := by
  rw [List.foldlM_cons]
  exact bind_of_error h

theorem foldlM_project_single {next : PlaceRef} (h : project f ref q m = .ok next m) :
    [q].foldlM (project f) ref m = .ok next m := by
  rw [List.foldlM_cons]
  exact bind_of_ok h

/-- In every machine, wherever an index projection stands in a place, it takes an array, or a slice whose
length is known, of `n` elements, and a number `k` below `n`, to the address that is `k` elements on
modulo `2 ^ 64`; it does not change the machine. If `k` is not negative and the array does not go around
the end of the addresses, this is an element of the array. A number from `n` on is out of bounds for the
whole place, and where there is no such array, number or known address, the whole place is an error too.
Only a number that is written in the program can be negative. -/
theorem elements_below_length {m : Machine} {place : Place} {pre post : List Projection}
    {q : Projection} {ref : PlaceRef} (hplace : place.projections = pre ++ q :: post) (hq : IsIndex q)
    (href : evalPlace ⟨place.base, pre⟩ m = .ok ref m) :
    (∀ id x elem n k size, Finds m ref q id x elem n k size →
      (k < 0 → q = .constIndex k) ∧
      (n ≤ k → (EvalError.indexOutside n k).kind = .outOfBounds ∧
        evalPlace place m = .error (.error (.indexOutside n k)) m) ∧
      (k < n → ∃ y : Nat,
        evalPlace ⟨place.base, pre ++ [q]⟩ m = .ok ⟨.known id y, elem, none⟩ m ∧
        (y : Int) = (x + k * size) % 2 ^ 64 ∧
        (0 ≤ k → 0 ≤ size → x + n * size < 2 ^ 64 →
          (y : Int) = x + k * size ∧ (x : Int) ≤ y ∧ y + size ≤ x + n * size))) ∧
    ((∀ id x elem n k size, ¬ Finds m ref q id x elem n k size) →
      ∃ e, evalPlace place m = .error (.error e) m) := by
  obtain ⟨base, _⟩ := place
  cases hplace
  obtain ⟨f, rest, hstack⟩ := stack_of_evalPlace href
  have hwhole (e : EvalError) (he : project f ref q m = .error (.error e) m) :
      evalPlace ⟨base, pre ++ q :: post⟩ m = .error (.error e) m :=
    (evalPlace_append hstack href _).trans (foldlM_project_of_error he post)
  constructor
  · rintro id x elem n k size ⟨⟨f', rest', hstack', hnames⟩, hptr, hholds, hsize⟩
    cases hstack.symm.trans hstack'
    have hproject := project_of_names hnames ref
    rw [element_of_holds hholds, hptr] at hproject
    refine ⟨hnames.eq_constIndex, fun houtside => ⟨rfl, hwhole _ ?_⟩, fun hinside => ?_⟩
    · rw [hproject, elementOf_outside _ _ houtside]
      rfl
    · obtain ⟨y, helement, hy⟩ := elementOf_inside id x hsize hinside
      rw [helement] at hproject
      refine ⟨y, (evalPlace_append hstack href _).trans (foldlM_project_single hproject), hy,
        fun hk hpos hend => ?_⟩
      rw [hy]
      obtain ⟨hmod, hlow, hhigh⟩ := row_within (Int.natCast_nonneg x) hk hinside hpos hend
      rw [hmod]
      exact ⟨rfl, hlow, hhigh⟩
  · intro hnone
    rcases project_cases f ref hq m with ⟨k, hnames⟩ | ⟨e, he⟩
    · rcases element_cases ref k with ⟨id, x, elem, n, size, hptr, hholds, hsize⟩ | ⟨e, he⟩
      · exact absurd ⟨⟨f, rest, hstack, hnames⟩, hptr, hholds, hsize⟩ (hnone id x elem n k size)
      · refine ⟨e, hwhole e ?_⟩
        rw [project_of_names hnames, he]
        rfl
    · exact ⟨e, hwhole e he⟩

/-- In a state that a program reaches, an index below zero goes from a row of characters to the byte that
stands before the row. -/
theorem elements_below_length_negative :
    Row.target.Passes Row.after ∧
    evalPlace ⟨1, [.field 1]⟩ Row.after = .ok ⟨.known 2 4, .array .char 3, none⟩ Row.after ∧
    evalPlace ⟨1, [.field 0]⟩ Row.after = .ok ⟨.known 2 0, .u8, none⟩ Row.after ∧
    evalPlace ⟨1, [.field 1, .constIndex (-1)]⟩ Row.after = .ok ⟨.known 2 0, .char, none⟩ Row.after := by
  have hpasses : Row.target.Passes Row.after := ⟨_, .single (.advance Row.step_start), .inl rfl⟩
  let row : PlaceRef := ⟨.known 2 4, .array .char 3, none⟩
  have hrow : evalPlace ⟨1, [.field 1]⟩ Row.after = .ok row Row.after := by rfl
  have hfirst : evalPlace ⟨1, [.field 0]⟩ Row.after = .ok ⟨.known 2 0, .u8, none⟩ Row.after := by rfl
  have hplace : (⟨1, [.field 1, .constIndex (-1)]⟩ : Place).projections
      = [.field 1] ++ .constIndex (-1) :: [] := rfl
  have hfinds : Finds Row.after row (.constIndex (-1)) 2 4 .char 3 (-1) 4 :=
    ⟨⟨_, _, Row.stack_after, .constIndex (-1)⟩, rfl, .array _ _ _ _, rfl⟩
  obtain ⟨-, -, hinside⟩ := (elements_below_length hplace trivial hrow).1 _ _ _ _ _ _ hfinds
  obtain ⟨y, hy, haddress, -⟩ := hinside (by decide)
  have hzero : y = 0 := by omega
  rw [hzero] at hy
  exact ⟨hpasses, hrow, hfirst, hy⟩

end Machine
end SymExec

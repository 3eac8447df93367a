import SymExec.Proofs.Housing
import SymExec.Proofs.Excerpt

/-!
# Places in locals

The fields of an aggregate and the elements of an array lie within it, and they are aligned where it is
(`Ty.Lies.field`, `Ty.Lies.element`). So a place that is reached from a local by fields and by indices in
range lies within the allocation of the local, and what is read and written there is within bounds and
aligned (`Machine.places_within_locals`).
-/
namespace SymExec

open Run Section Memory

variable {ty : Ty} {i length : Int} {v : Scalar} {ts : List Ty}

/-- Items that correspond stand at the same index. -/
theorem Section.item?_of_forall₂ {α β : Type} {R : α → β → Prop} {xs : List α} {ys : List β}
    (h : List.Forall₂ R xs ys) {x : α} (hx : item? xs i = some x) :
    ∃ y, item? ys i = some y ∧ R x y := by
  have hget {n : Nat} (hn : xs[n]? = some x) : ∃ y, ys[n]? = some y ∧ R x y := by
    obtain ⟨hlt, rfl⟩ := List.getElem?_eq_some_iff.1 hn
    have hlt' : n < ys.length := h.length_eq ▸ hlt
    exact ⟨ys[n], List.getElem?_eq_getElem hlt', h.get hlt hlt'⟩
  unfold item? at hx ⊢
  rw [← h.length_eq]
  split at hx
  · rw [if_pos ‹_›]
    exact hget hx
  · rw [if_neg ‹_›]
    split at hx
    · rw [if_pos ‹_›]
      exact hget hx
    · cases hx

/-- A pointer moves without wrapping around. -/
theorem Pointer.offsetBy_known (id : Nat) {x d : Nat} (h : x + d < 2 ^ 64) :
    (known id x).offsetBy d = .ok (known id (x + d)) := by
  simp only [offsetBy]
  rw [← Int.natCast_add, BitVec.ofInt_natCast, BitVec.toNat_ofNat, Nat.mod_eq_of_lt h]

/-! ## Parts of types -/

namespace Ty

variable {n : Int}

theorem of_layout {t : Ty} {k : Nat} (h : t.layout = .ok ⟨some n, k⟩) :
    t.size = .ok n ∧ t.align = .ok k := by
  rw [size, align, h]
  exact ⟨rfl, rfl⟩

/-- A value of a type at an offset lies within a range of a size, and it is aligned if the start of the
range is. -/
structure Lies (size : Int) (align : Nat) (x : Nat) (t : Ty) : Prop where
  nonNegative : t.isNonNegative = true
  fits : ∃ n k, t.layout = .ok ⟨some n, k⟩ ∧ x + n ≤ size ∧ k ∣ x ∧ k ∣ align

namespace Lies

variable {size : Int} {align x : Nat} {t u : Ty}

theorem start (ht : t.isNonNegative) (hlayout : t.layout = .ok ⟨some n, align⟩) :
    Lies n align 0 t :=
  ⟨ht, n, align, hlayout, by simp, Nat.dvd_zero _, Nat.dvd_refl _⟩

theorem lt (h : Lies size align x t) (hsize : size < maxCells) : x < 2 ^ 64 := by
  obtain ⟨n, k, hlayout, hle, -⟩ := h.fits
  have hn := ((layout_lawful h.nonNegative hlayout).multiple n rfl).1
  have hmax : (maxCells : Int) ≤ 2 ^ 64 := by decide
  omega

theorem field (h : Lies size align x t) (hts : t.fields? = some ts)
    (hu : item? ts i = some u) :
    ∃ (list : List Int) (d : Nat), offsets ts = .ok list ∧ item? list i = some (d : Int) ∧
      Lies size align (x + d) u := by
  obtain ⟨n, k, hlayout, hle, hx, halign⟩ := h.fits
  have hfits : u.Fits True := Fits.fields (fun _ => h.nonNegative) hts u (mem_of_item? hu)
  obtain ⟨parts, hparts, hmakes, hoffsets, hlaid⟩ := exists_laid h.nonNegative hts hlayout
  obtain ⟨p, hp, hup⟩ := item?_of_forall₂ hmakes hu
  have hmem := mem_of_item? hp
  obtain ⟨hlow, hdvd⟩ := hlaid.le_offset hparts p hmem
  obtain ⟨-, -, hsizes⟩ := hlaid.le_size hparts Nat.one_pos rfl
  obtain ⟨size, hsize, hend⟩ := hsizes p hmem
  obtain ⟨-, -, haligns⟩ := hlaid.dvd_align hparts ⟨0, rfl⟩
  have hinner : p.layout.align ∣ k := haligns p hmem
  obtain ⟨d, hd⟩ := Int.eq_ofNat_of_zero_le hlow
  rw [hd] at hdvd hend
  have hoffset : item? (parts.map Part.offset) i = some (d : Int) := by
    rw [map_item?, hp, ← hd]
    rfl
  have haligned := Nat.dvd_add (hinner.trans hx) (Int.natCast_dvd_natCast.1 hdvd)
  exact ⟨_, d, hoffsets, hoffset, hfits trivial, size, p.layout.align, by rw [hup, ← hsize], by omega,
    haligned, hinner.trans halign⟩

theorem element (h : Lies size align x (array t length)) (hpos : 0 ≤ i) (hlt : i < length) :
    ∃ (n : Int) (d : Nat), t.size = .ok n ∧ i * n = d ∧ Lies size align (x + d) t := by
  obtain ⟨whole, k, hlayout, hle, hx, halign⟩ := h.fits
  have ht : t.isNonNegative := Fits.elem (P := True) (fun _ => h.nonNegative) trivial
  unfold layout at hlayout
  obtain ⟨l, hl, hlayout⟩ := bind_iff.1 hlayout
  obtain ⟨n, k'⟩ := l
  cases n with
  | none => cases hlayout
  | some n =>
    cases hlayout
    obtain ⟨hn, hdvd⟩ := (layout_lawful ht hl).multiple n rfl
    obtain ⟨d, hd⟩ := Int.eq_ofNat_of_zero_le (Int.mul_nonneg hpos hn)
    have hend : d + n ≤ n * length := by
      calc (d : Int) + n = (i + 1) * n := by rw [← hd, Int.add_mul, Int.one_mul]
        _ ≤ length * n := Int.mul_le_mul_of_nonneg_right hlt hn
        _ = n * length := Int.mul_comm _ _
    have haligned : k' ∣ d := by
      rw [← Int.natCast_dvd_natCast, ← Int.ofNat_eq_natCast, ← hd]
      exact Int.dvd_mul_of_dvd_right hdvd
    exact ⟨n, d, (of_layout hl).1, hd, ht, n, k', hl, by omega, Nat.dvd_add hx haligned, halign⟩

end Lies
end Ty

/-! ## Chains of projections -/

namespace Machine

variable {m : Machine} {f : Frame} {t u : Ty} {q : Projection} {qs : List Projection}

/-- A projection that goes from a value of a type to a field of it, or to an element at an index in
range. -/
inductive Selects (m : Machine) (f : Frame) : Ty → Projection → Ty → Prop where
  | field {t u : Ty} {ts : List Ty} {i : Int} (hts : t.fields? = some ts)
    (hu : item? ts i = some u) : Selects m f t (.field i) u
  | constIndex {elem : Ty} {length i : Int} (hpos : 0 ≤ i) (hlt : i < length) :
    Selects m f (.array elem length) (.constIndex i) elem
  | index {elem ty : Ty} {length base : Int} {p : Pointer} {pattern : BitVec 128}
    (hlocal : localAt f base = .ok (p, ty)) (hread : readScalar p .usize m = .ok (.bits pattern) m)
    (hlt : (pattern.setWidth 64).toNat < length) :
    Selects m f (.array elem length) (.index base) elem

inductive Chain (m : Machine) (f : Frame) : Ty → List Projection → Ty → Prop where
  | nil {t : Ty} : Chain m f t [] t
  | cons {t u v : Ty} {q : Projection} {qs : List Projection} (head : Selects m f t q u)
    (tail : Chain m f u qs v) : Chain m f t (q :: qs) v

variable {size : Int} {align x : Nat}

theorem fieldOf_eq_ok (id : Nat) (h : Ty.Lies size align x t) (hsize : size < maxCells)
    (hts : t.fields? = some ts) (hu : item? ts i = some u) :
    ∃ y, fieldOf ⟨.known id x, t, none⟩ i = .ok ⟨.known id y, u, none⟩ ∧ Ty.Lies size align y u := by
  obtain ⟨list, d, hlist, hd, hlies⟩ := h.field hts hu
  have hin : ¬ (ts.length : Int) ≤ i := fun hle => by
    rw [item?, if_pos (by omega), List.getElem?_eq_none (by omega)] at hu
    cases hu
  -- the offsets are found as for the layout, and the pointer does not wrap around
  refine ⟨x + d, ?_, hlies⟩
  simp only [fieldOf, hts, hin, if_false]
  refine bind_iff.2 ⟨list, lift_eq_ok.2 hlist, ?_⟩
  simp only [hd, hu]
  have hptr := Pointer.offsetBy_known id (hlies.lt hsize)
  exact bind_iff.2 ⟨_, lift_eq_ok.2 hptr, rfl⟩

theorem element_eq_ok (id : Nat) (h : Ty.Lies size align x (.array t length))
    (hsize : size < maxCells) (hpos : 0 ≤ i) (hlt : i < length) :
    ∃ y, element ⟨.known id x, .array t length, none⟩ i = .ok ⟨.known id y, t, none⟩ ∧
      Ty.Lies size align y t := by
  obtain ⟨n, d, hn, hd, hlies⟩ := h.element hpos hlt
  refine ⟨x + d, ?_, hlies⟩
  refine bind_iff.2 ⟨(t, length), rfl, ?_⟩
  simp only [Int.not_le.2 hlt, if_false]
  refine bind_iff.2 ⟨n, hn, ?_⟩
  rw [hd, Pointer.offsetBy_known id (hlies.lt hsize)]
  rfl

/-- A projection finds a part of what lies within a range, and leaves the machine as it is. -/
theorem Selects.project (hq : Selects m f t q u) (id : Nat) (h : Ty.Lies size align x t)
    (hsize : size < maxCells) :
    ∃ y, Machine.project f ⟨.known id x, t, none⟩ q m = .ok ⟨.known id y, u, none⟩ m ∧
      Ty.Lies size align y u := by
  cases hq with
  | field hts hu =>
    obtain ⟨y, hy, hlies⟩ := fieldOf_eq_ok id h hsize hts hu
    exact ⟨y, of_eq_ok.2 ⟨hy, rfl⟩, hlies⟩
  | constIndex hpos hlt =>
    obtain ⟨y, hy, hlies⟩ := element_eq_ok id h hsize hpos hlt
    exact ⟨y, of_eq_ok.2 ⟨lift_eq_ok.2 hy, rfl⟩, hlies⟩
  | @index elem ty length base p pattern hlocal hread hlt =>
    obtain ⟨y, hy, hlies⟩ := element_eq_ok id h hsize (Int.natCast_nonneg _) hlt
    refine ⟨y, ?_, hlies⟩
    refine bind_eq_ok.2 ⟨(p, ty), m, of_eq_ok.2 ⟨lift_eq_ok.2 hlocal, rfl⟩, ?_⟩
    refine bind_eq_ok.2 ⟨.bits pattern, m, hread, ?_⟩
    -- a known number has low bits, so that the rest is an element at an index
    exact bind_eq_ok.2 ⟨_, m, rfl, of_eq_ok.2 ⟨lift_eq_ok.2 hy, rfl⟩⟩

theorem Chain.foldlM {v : Ty} (hqs : Chain m f t qs v) (id : Nat) (h : Ty.Lies size align x t)
    (hsize : size < maxCells) :
    ∃ y, qs.foldlM (Machine.project f) ⟨.known id x, t, none⟩ m = .ok ⟨.known id y, v, none⟩ m ∧
      Ty.Lies size align y v := by
  induction hqs generalizing x with
  | nil => exact ⟨x, rfl, h⟩
  | cons head tail ih =>
    obtain ⟨y, hy, hlies⟩ := head.project id h hsize
    obtain ⟨z, hz, hlies⟩ := ih hlies
    exact ⟨z, by rw [List.foldlM_cons, bind_of_ok hy, hz], hlies⟩

theorem evalPlace_eq_ok {rest : List Frame} (hstack : m.stack = f :: rest) {place : Place}
    {p : Pointer} (hlocal : localAt f place.base = .ok (p, ty)) (hhouses : m.memory.Houses p ty)
    (hchain : Chain m f ty place.projections u) :
    ∃ id n align x, p = .known id 0 ∧ ty.layout = .ok ⟨some n, align⟩ ∧
      evalPlace place m = .ok ⟨.known id x, u, none⟩ m ∧ Ty.Lies n align x u := by
  obtain ⟨hty, id, a, n, rfl, hfind, hlayout, hsize, hmax⟩ := hhouses
  obtain ⟨x, hx, hlies⟩ := hchain.foldlM id (.start hty hlayout) hmax
  refine ⟨id, n, a.align, x, rfl, hlayout, ?_, hlies⟩
  unfold evalPlace
  rw [bind_of_ok (frame_of_stack hstack)]
  exact bind_eq_ok.2 ⟨_, m, of_eq_ok.2 ⟨lift_eq_ok.2 hlocal, rfl⟩, hx⟩

end Machine

/-! ## Accesses -/

def EvalError.IsMisplaced (e : EvalError) : Prop := e.kind = .outOfBounds ∨ e.kind = .alignment

theorem Scalar.misfit?_not_isMisplaced {size : Int} {e : EvalError} (h : v.misfit? size = some e) :
    ¬ e.IsMisplaced := by
  cases v with
  | ptr target | cells list =>
    rw [misfit?, Option.ite_none_left_eq_some] at h
    cases h.2
    simp [EvalError.IsMisplaced, EvalError.kind]
  | _ => cases h

namespace Memory

variable {m : Memory} {p : Pointer} {size align : Int} {x : Nat × Nat × Allocation} {e : EvalError}

theorem readScalar_error {kind : Kind} (hchecked : m.checked p size align = .ok x)
    (h : m.readScalar p size kind align = .error e) : e = .pointerAsBytes := by
  rw [readScalar_eq_bind, excerpt, hchecked] at h
  replace h : (x.2.2.excerpt x.2.1 size).scalar size kind = .error e := h
  unfold Excerpt.scalar at h
  split at h
  · cases h
  · split at h
    · cases h
    · cases h
      rfl
  · cases h
    rfl

end Memory

theorem Ty.kind_error {t : Ty} {l : Layout} {e : EvalError} (hlayout : t.layout = .ok l)
    (h : t.kind = .error e) : e = .notPrimitive t := by
  have hpointer {p : Ty} (hp : t.pointee? = some p) : ∃ l, p.layout = .ok l := by
    cases t with
    | rawPtr inner _ | ref inner _ =>
      cases hp
      unfold layout at hlayout
      obtain ⟨l, hl, -⟩ := bind_iff.1 hlayout
      exact ⟨l, hl⟩
    | _ => cases hp
  unfold kind at h
  split at h
  any_goals cases h
  split at h
  · rename_i hp
    obtain ⟨⟨size, align⟩, hl⟩ := hpointer hp
    rw [isSized, hl] at h
    cases size with
    | none =>
      cases h
      rfl
    | some n => cases h
  · cases h
    rfl

namespace Ty.Lies

variable {m : Memory} {id x : Nat} {a : Allocation} {t : Ty}

theorem checked (hfind : m.find? id = some a) (halign : 0 < a.align) (h : Lies a.size a.align x t) :
    ∃ n k, t.layout = .ok ⟨some n, k⟩ ∧ m.checked (.known id x) n k = .ok (id, x, a) := by
  obtain ⟨n, k, hlayout, hle, hx, hk⟩ := h.fits
  refine ⟨n, k, hlayout, ?_⟩
  -- what divides the alignment of the allocation is not above it
  have hkle := Nat.le_of_dvd halign hk
  have hrest : (x : Int) % k = 0 := Int.emod_eq_zero_of_dvd (Int.natCast_dvd_natCast.2 hx)
  rw [checked_of_find hfind, if_neg (by omega), if_neg]
  simp [hrest, hkle]

end Ty.Lies

namespace Machine

variable {m m' : Machine} {id x : Nat} {a : Allocation} {t : Ty} {e : EvalError}
  (hfind : m.memory.find? id = some a) (halign : 0 < a.align) (h : Ty.Lies a.size a.align x t)
include hfind halign h

theorem readScalar_error (herror : readScalar (.known id x) t m = .error (.error e) m') :
    e = .notPrimitive t ∨ e = .pointerAsBytes := by
  obtain ⟨n, k, hlayout, hchecked⟩ := h.checked hfind halign
  obtain ⟨hn, hk⟩ := Ty.of_layout hlayout
  unfold readScalar at herror
  rw [hn, hk] at herror
  cases hkind : t.kind with
  | error c =>
    rw [hkind] at herror
    cases herror
    exact .inl (Ty.kind_error hlayout hkind)
  | ok kind =>
    rw [hkind] at herror
    replace herror : (liftM (m.memory.readScalar (.known id x) n kind k) : Run Machine Scalar) m
        = .error (.error e) m' := herror
    cases hread : m.memory.readScalar (.known id x) n kind k with
    | ok v =>
      rw [hread] at herror
      cases herror
    | error c =>
      rw [hread] at herror
      cases herror
      exact .inr (readScalar_error hchecked hread)

/-- A value can be written there if it fits the slot. -/
theorem writeScalar_error {aligned : Bool}
    (herror : writeScalar (.known id x) v t aligned m = .error (.error e) m') :
    ∃ size, v.misfit? size = some e := by
  obtain ⟨n, k, hlayout, hchecked⟩ := h.checked hfind halign
  obtain ⟨hn, hk⟩ := Ty.of_layout hlayout
  have hpos := ((Ty.layout_lawful h.nonNegative hlayout).multiple n rfl).1
  have hwrite {align : Int} (hchecked : m.memory.checked (.known id x) n align = .ok (id, x, a))
      (herror : onMemory (Memory.writeScalar (.known id x) v n align) m = .error (.error e) m') :
      v.misfit? n = some e := by
    unfold onMemory at herror
    rw [Memory.writeScalar_eq hpos hchecked] at herror
    cases hfits : v.misfit? n with
    | none =>
      rw [hfits] at herror
      cases herror
    | some c =>
      rw [hfits] at herror
      cases herror
      rfl
  unfold writeScalar at herror
  rw [hn, hk] at herror
  cases aligned with
  | true => exact ⟨n, hwrite hchecked herror⟩
  | false => exact ⟨n, hwrite (Memory.checked_one hchecked) herror⟩

end Machine

/-! ## Locals -/

theorem Target.Passes.houses_localAt {program : Program} {name : String} {config : Config}
    {t : Target} {m : Machine} (hp : program.NonNegative) (ht : t.Starts program name config)
    (h : t.Passes m) {f : Frame} (hf : f ∈ m.stack) {p : Pointer}
    (hlocal : Machine.localAt f i = .ok (p, ty)) : m.memory.Houses p ty := by
  unfold Machine.localAt at hlocal
  split at hlocal
  · rename_i q u hq hu
    obtain ⟨v, hv, hhouses⟩ := item?_of_forall₂ (h.houses hp ht hf) hq
    cases hu.symm.trans hv
    split at hlocal
    · cases hlocal
      exact hhouses
    · cases hlocal
  · cases hlocal

/-- Layouts are lawful and aggregates are arranged by them. At all times a local is the start of an
allocation that is as large and as aligned as its type asks for. So a place that is reached from a local
by fields and indices in range lies within this allocation and is aligned. -/
theorem Machine.places_within_locals :
    (∀ (t : Ty) (l : Ty.Layout), t.isNonNegative = true → t.layout = .ok l →
      l.Lawful ∧ ∀ ts, t.fields? = some ts → ∃ parts, Ty.Makes ts parts ∧
        Ty.offsets ts = .ok (parts.map Ty.Part.offset) ∧ Ty.Arranged parts l) ∧
    (∀ (program : Program) (name : String) (config : Config) (t : Target) (m : Machine),
      program.NonNegative →
      (Target.ofMain program name config = .ok t ∨ Target.ofSymbolic program name config = .ok t) →
      t.Passes m → ∀ f ∈ m.stack, ∀ (i : Int) (p : Pointer) (ty : Ty),
        localAt f i = .ok (p, ty) → m.memory.Houses p ty) ∧
    ∀ (m : Machine) (f : Frame) (rest : List Frame) (place : Place) (p : Pointer) (ty u : Ty),
      m.stack = f :: rest → localAt f place.base = .ok (p, ty) → m.memory.Houses p ty →
      Chain m f ty place.projections u →
      ∃ id n align x, p = .known id 0 ∧ ty.layout = .ok ⟨some n, align⟩ ∧
        evalPlace place m = .ok ⟨.known id x, u, none⟩ m ∧ Ty.Lies n align x u ∧
        ∀ m1 : Machine, m1.memory.Houses p ty → ∀ (e : EvalError) (m2 : Machine),
          (readScalar (.known id x) u m1 = .error (.error e) m2 ∨
            ∃ v aligned, writeScalar (.known id x) v u aligned m1 = .error (.error e) m2) →
          ¬ e.IsMisplaced := by
  refine ⟨fun t l ht hl => ⟨Ty.layout_lawful ht hl, fun ts hts => ?_⟩,
    fun program name config t m hp ht h f hf i p ty hlocal => h.houses_localAt hp ht hf hlocal,
    fun m f rest place p ty u hstack hlocal hhouses hchain => ?_⟩
  · obtain ⟨parts, hparts, hmakes, hoffsets, hlaid⟩ := Ty.exists_laid ht hts hl
    exact ⟨parts, hmakes, hoffsets, hlaid.arranged hparts⟩
  · obtain ⟨id, n, align, x, rfl, hlayout, hplace, hlies⟩ := evalPlace_eq_ok hstack hlocal hhouses hchain
    refine ⟨id, n, align, x, rfl, hlayout, hplace, hlies, fun m1 hhouses1 e m2 herror => ?_⟩
    -- the access may come later, but the allocation still has the size and alignment of the type
    obtain ⟨hty, _, a, _, ⟨⟩, hfind, hlayout1, hsize, -⟩ := hhouses1
    cases hlayout.symm.trans hlayout1
    rw [← hsize] at hlies
    have halign := (Ty.layout_lawful hty hlayout).align_pos
    rcases herror with hread | ⟨v, aligned, hwrite⟩
    · rcases readScalar_error hfind halign hlies hread with rfl | rfl
      · simp [EvalError.IsMisplaced, EvalError.kind]
      · simp [EvalError.IsMisplaced, EvalError.kind]
    · obtain ⟨size, hmisfit⟩ := writeScalar_error hfind halign hlies hwrite
      exact Scalar.misfit?_not_isMisplaced hmisfit

/-! ## A row of characters -/

namespace Row

/-- Sets an index into a row of characters, which stands behind a byte. -/
def main : Function where
  name := .str "main"
  locals := [.unit, .tuple [.u8, .array .char 3], .usize]
  argCount := 0
  blocks := [⟨[.assign ⟨2, []⟩ (.use (.constant (.int 2) .usize))], .ret⟩]

def program : Program := ⟨[main]⟩

def start : Machine where
  program := program
  limits := {}
  memory := {
    limit := Limits.memory {}
    allocs := [(1, fresh 0 1 .stack), (2, fresh 16 4 .stack), (3, fresh 8 8 .stack)]
    next := 4
    usage := 24 }
  stack := [{ function := main, locals := [.known 1 0, .known 2 0, .known 3 0] }]

def target : Target := { start := start }

def after : Machine := Machine.step.final start

def frame : Frame := { function := main, locals := [.known 1 0, .known 2 0, .known 3 0], stmt := 1 }

theorem ofMain_program : Target.ofMain program "main" {} = .ok target := by rfl

theorem step_start : Machine.step start = .ok .advance after := by rfl

theorem stack_after : after.stack = [frame] := by rfl

theorem read_index : Machine.readScalar (.known 3 0) .usize after = .ok (.bits 2) after := by rfl

end Row

theorem Machine.places_within_locals_sample :
    Row.program.NonNegative ∧ Target.ofMain Row.program "main" {} = .ok Row.target ∧
    Row.target.Passes Row.after ∧
    (Ty.tuple [.u8, .array .char 3]).layout = .ok ⟨some 16, 4⟩ ∧ Ty.Layout.Lawful ⟨some 16, 4⟩ ∧
    ∃ x, evalPlace ⟨1, [.field 1, .index 2]⟩ Row.after = .ok ⟨.known 2 x, .char, none⟩ Row.after ∧
      Ty.Lies 16 4 x .char ∧ ∀ (e : EvalError) (m : Machine),
        (readScalar (.known 2 x) .char Row.after = .error (.error e) m ∨
          ∃ v aligned, writeScalar (.known 2 x) v .char aligned Row.after = .error (.error e) m) →
        ¬ e.IsMisplaced := by
  obtain ⟨hlaws, hlocals, hplaces⟩ := places_within_locals
  have hnonneg : Row.program.NonNegative := by decide
  have hpasses : Row.target.Passes Row.after := ⟨_, .single (.advance Row.step_start), .inl rfl⟩
  have hlayout : (Ty.tuple [.u8, .array .char 3]).layout = .ok ⟨some 16, 4⟩ := by rfl
  have hlocal : localAt Row.frame 1 = .ok (.known 2 0, .tuple [.u8, .array .char 3]) := by rfl
  have hframe : Row.frame ∈ Row.after.stack := by simp [Row.stack_after]
  have hhouses := hlocals _ _ _ _ _ hnonneg (.inl Row.ofMain_program) hpasses _ hframe _ _ _ hlocal
  have hindex : localAt Row.frame 2 = .ok (.known 3 0, .usize) := by rfl
  have hchain : Chain Row.after Row.frame (.tuple [.u8, .array .char 3]) [.field 1, .index 2] .char :=
    .cons (.field rfl rfl) (.cons (.index hindex Row.read_index (by decide)) .nil)
  obtain ⟨id, n, align, x, hid, hsame, hplace, hlies, haccess⟩ :=
    hplaces _ _ _ ⟨1, [.field 1, .index 2]⟩ _ _ _ Row.stack_after hlocal hhouses hchain
  cases hid
  cases hlayout.symm.trans hsame
  exact ⟨hnonneg, Row.ofMain_program, hpasses, hlayout, (hlaws _ _ (by decide) hlayout).1, x, hplace,
    hlies, haccess _ hhouses⟩

end SymExec

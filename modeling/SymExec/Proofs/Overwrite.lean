import SymExec.Proofs.Parts
import SymExec.Proofs.Unchanged

/-!
# What a typed write overwrites

A value of a type is written by one operation on memory or, for a pair, by two. Either way only the
bytes of the type at its address change (`Machine.overwrites_writeValue`). For a pair this needs that the
second half lies behind the first: the offset of a half is taken modulo `2 ^ 64`, but it never wraps, as
an allocation has less than `2 ^ 32` bytes and the halves are less than an alignment apart.
-/
namespace SymExec

open Run

variable {k length n stop y : Int} {start : Nat} {v : Scalar}

/-! ## Changes one after the other -/

namespace Allocation

variable {a b c : Allocation} {offset : Nat} {size : Int}

theorem overlaps_mono {start start' stop' : Int} {x : Nat} (hlow : start' ≤ start)
    (hhigh : stop ≤ stop') (h : overlaps start stop x) : overlaps start' stop' x := by
  simp only [overlaps, Bool.and_eq_true, decide_eq_true_eq] at h ⊢
  omega

/-- A change of a range is one of every range around it. -/
theorem Changes.widen (h : Changes offset size a b) (hlow : start ≤ offset)
    (hhigh : (offset : Int) + size ≤ start + length) : Changes start length a b := by
  refine ⟨h.length, h.align, h.packed, fun k hk => h.cells k (by omega),
    fun k hk => h.marks k (by omega), fun seen hcut hinside => h.pointers seen ?_ ?_⟩
  · exact fun r hr hoverlaps => hcut r hr (overlaps_mono (by omega) hhigh hoverlaps)
  · exact fun x hx hx' => hinside x (by omega) (by omega)

theorem Changes.trans (h : Changes offset size a b) (h' : Changes offset size b c) :
    Changes offset size a c := by
  refine ⟨h'.length.trans h.length, h'.align.trans h.align, h'.packed.trans h.packed,
    fun k hk => (h'.cells k hk).trans (h.cells k hk),
    fun k hk => (h'.marks k hk).trans (h.marks k hk), fun seen hcut hinside => ?_⟩
  have hfirst := h.pointers seen hcut hinside
  refine (h'.pointers seen (fun r hr hoverlaps => ?_) hinside).trans hfirst
  -- a pointer that is seen after the first change was there before it
  by_contra hseen
  have hkept : r ∈ b.relocations.filter fun r => seen r.1 :=
    List.mem_filter.2 ⟨hr, by simpa using hseen⟩
  rw [hfirst] at hkept
  exact hseen (hcut r (List.mem_of_mem_filter hkept) hoverlaps)

end Allocation

namespace Memory

variable {m m' m1 m2 : Memory} {id offset : Nat} {size align : Int} {p q : Pointer}

theorem Alters.widen (h : Alters id offset size m m') (hlow : start ≤ offset)
    (hhigh : (offset : Int) + size ≤ start + length) : Alters id start length m m' := by
  obtain ⟨f, hallocs, hf⟩ := h
  exact ⟨f, hallocs, fun a ha => (hf a ha).widen hlow hhigh⟩

theorem Alters.trans (h : Alters id offset size m m1) (h' : Alters id offset size m1 m2) :
    Alters id offset size m m2 := by
  obtain ⟨f, hallocs, hf⟩ := h
  obtain ⟨g, hallocs', hg⟩ := h'
  refine ⟨g ∘ f, ?_, fun a ha => (hf a ha).trans (hg (f a) ?_)⟩
  · rw [hallocs', ← update_update, allocs_update, allocs_update, hallocs]
  · rw [find?, hallocs, ← find?, find?_update, ha]
    simp

/-! ## Overwritten ranges -/

/-- The bytes of the range of `size` bytes at `p` may have changed, but nothing else. The offset of a
pointer counts modulo `2 ^ 64`. -/
structure Overwrites (p : Pointer) (size : Int) (m m' : Memory) : Prop where
  rewritten : m.Rewritten m'
  store : m'.store = m.store
  range : m' = m ∨ ∃ id offset, p = .known id offset ∧ Alters id (offset % 2 ^ 64) size m m'

theorem Overwrites.refl (hm : m.Regular) (p : Pointer) (size : Int) : m.Overwrites p size m :=
  ⟨rewrites_composes.refl m hm, rfl, .inl rfl⟩

theorem Overwrites.excerpt_eq (h : Overwrites p size m m') (hn : 0 ≤ n)
    (hseparate : ∀ id offset, p = .known id offset → m.Separate id (offset % 2 ^ 64) size q n)
    (k : Int) : m'.excerpt q n k = m.excerpt q n k := by
  obtain rfl | ⟨id, offset, hp, halters⟩ := h.range
  · rfl
  · exact halters.excerpt_eq hn (hseparate id offset hp) k

/-- What is inside of an allocation is far from where offsets wrap around. -/
theorem Compact.bound {a : Allocation} (hm : m.Compact) (hfind : m.find? id = some a)
    (hle : (offset : Int) + size ≤ a.size) : (offset : Int) + size < 2 ^ 32 := by
  have hsmall : a.size < 2 ^ 32 := hm.small (id, a) (mem_of_lookup hfind)
  omega

theorem overwrites_writeScalar (hm : m.Compact) (hsize : 0 ≤ size)
    (h : writeScalar p v size align m = .ok () m') :
    Overwrites p size m m' ∧ ∃ id offset, p = .known id offset ∧ (offset : Int) + size < 2 ^ 32 ∧
      Alters id offset size m m' := by
  obtain ⟨id, offset, a, hchecked, -, hm'⟩ := writeScalar_eq_ok hsize h
  obtain ⟨rfl, hfind, hle⟩ := checked_eq_ok hchecked
  have hbound := hm.bound hfind hle
  have halters := alters_writeScalar hm.toRegular hsize h
  have hrewritten := rewrites_writeScalar (.known id offset) v hsize align m hm.toRegular
  rw [final_of_ok h] at hrewritten
  have hstore : m'.store = m.store := by
    rw [hm']
    split <;> rfl
  refine ⟨⟨hrewritten, hstore, .inr ⟨id, offset, rfl, ?_⟩⟩, id, offset, rfl, hbound, halters⟩
  rwa [Nat.mod_eq_of_lt (by omega)]

theorem overwrites_copyBytes (hm : m.Compact) {source dest : Pointer} (hsize : 0 ≤ size)
    (h : copyBytes source dest size align m = .ok () m') : Overwrites dest size m m' := by
  by_cases hzero : size = 0
  · subst hzero
    cases h
    exact .refl hm.toRegular dest 0
  · obtain ⟨_, _, _, id, offset, b, -, hdest, hm'⟩ := copyBytes_eq_ok hzero h
    obtain ⟨rfl, hfind, hle⟩ := checked_eq_ok hdest
    have hbound := hm.bound hfind hle
    have hrewritten := rewrites_copyBytes source (.known id offset) hsize align m hm.toRegular
    rw [final_of_ok h] at hrewritten
    refine ⟨hrewritten, by rw [hm', update], .inr ⟨id, offset, rfl, ?_⟩⟩
    rw [Nat.mod_eq_of_lt (by omega)]
    exact alters_copyBytes hm.toRegular hsize h

/-- Two values that are written one behind the other. -/
theorem overwrites_pair (hm : m.Compact) {r : Pointer} {w : Scalar} {align' : Int} (hn : 0 ≤ n)
    (hk : 0 ≤ k) (hnext : n ≤ y) (hnear : y < n + 16) (hend : y + k ≤ size)
    (hp : p.offsetBy 0 = .ok q) (hfirst : writeScalar q v n align m = .ok () m1)
    (hr : p.offsetBy y = .ok r) (hsecond : writeScalar r w k align' m1 = .ok () m2) :
    Overwrites p size m m2 := by
  obtain ⟨hfst, id, offset, rfl, hbound, halters⟩ := overwrites_writeScalar hm hn hfirst
  have hm1 := compact_of_rewritten hm hfst.rewritten
  obtain ⟨hsnd, id', offset', rfl, -, halters'⟩ := overwrites_writeScalar hm1 hk hsecond
  cases p with
  | symbolic id o => cases hp
  | known id o =>
    simp only [Pointer.offsetBy, Except.ok.injEq, Pointer.known.injEq, BitVec.toNat_ofInt] at hp hr
    obtain ⟨rfl, rfl⟩ := hp
    obtain ⟨rfl, rfl⟩ := hr
    refine ⟨rewrites_composes.trans (fun _ => hfst.rewritten) (fun _ => hsnd.rewritten) hm.toRegular,
      hsnd.store.trans hfst.store, .inr ⟨id, o, rfl, ?_⟩⟩
    exact (halters.widen (by omega) (by omega)).trans (halters'.widen (by omega) (by omega))

end Memory

/-! ## Pairs -/

namespace Ty

variable {t : Ty}

theorem size_eq_ok (h : t.size = .ok n) : ∃ l, t.layout = .ok l ∧ l.size = some n := by
  obtain ⟨l, hl, h⟩ := bind_iff.1 h
  cases hsize : l.size with
  | none =>
    rw [hsize] at h
    cases h
  | some size =>
    rw [hsize] at h
    cases h
    exact ⟨l, hl, hsize⟩

theorem size_of_layout {l : Layout} (h : t.layout = .ok l) (hsize : l.size = some n) :
    t.size = .ok n := by
  rw [size, h]
  simp only [bind, Except.bind, hsize]
  rfl

theorem Laid.align_le {align : Nat} {parts : List Part} {whole : Layout}
    (h : Laid stop align parts whole) (halign : align ≤ 16)
    (hparts : ∀ p ∈ parts, p.layout.align ≤ 16) : whole.align ≤ 16 := by
  induction h with
  | nil => exact halign
  | unsized hsize => exact Nat.max_le.2 ⟨halign, hparts _ List.mem_cons_self⟩
  | cons hsize rest ih =>
    exact ih (Nat.max_le.2 ⟨halign, hparts _ List.mem_cons_self⟩) fun p hp =>
      hparts p (List.mem_cons_of_mem _ hp)

mutual

/-- No type asks for more than what a 128-bit integer does. -/
theorem layout_align_le : ∀ {t : Ty} {l : Layout}, t.layout = .ok l → l.align ≤ 16
  | int w _ _, _, h => by
    unfold layout at h
    cases h
    cases w <;> decide
  | bool, _, h | str, _, h | char, _, h | f32, _, h | f64, _, h | fnPtr _, _, h => by
    unfold layout at h
    cases h
    decide
  | rawPtr inner _, _, h | ref inner _, _, h => by
    unfold layout at h
    obtain ⟨l, -, ⟨⟩⟩ := bind_iff.1 h
    unfold Layout.pointer
    split <;> decide
  | slice elem, _, h => by
    unfold layout at h
    obtain ⟨l, hl, ⟨⟩⟩ := bind_iff.1 h
    have hinner := layout_align_le hl
    exact hinner
  | array elem length, _, h => by
    unfold layout at h
    obtain ⟨l, hl, h⟩ := bind_iff.1 h
    have hinner := layout_align_le hl
    split at h
    · cases h
      exact hinner
    · cases h
  | tuple fields, _, h | struct _ fields _, _, h => by
    unfold layout at h
    obtain ⟨whole, hwhole, ⟨⟩⟩ := bind_iff.1 h
    obtain ⟨parts, hmakes, -, hlaid⟩ := place_eq_ok hwhole
    exact hlaid.align_le (by decide) (parts_align_le hmakes)

theorem parts_align_le : ∀ {ts : List Ty} {parts : List Part}, Makes ts parts →
    ∀ p ∈ parts, p.layout.align ≤ 16
  | [], _, .nil, p, hp => by cases hp
  | t :: ts, _, .cons hq hmakes, p, hp => by
    rcases List.mem_cons.1 hp with rfl | hp
    · exact layout_align_le hq
    · exact parts_align_le hmakes p hp

end

theorem layout_of_place {ts : List Ty} {whole : List Int × Layout} (hfields : t.fields? = some ts)
    (h : place ts 0 1 = .ok whole) : t.layout = .ok whole.2 := by
  cases t with
  | tuple fields | struct name fields dropGlue =>
    cases hfields
    rw [layout, h]
    rfl
  | _ => cases hfields

theorem size_of_isFat (h : t.isFat = .ok true) : t.size = .ok (2 * pointerSize) := by
  have hpointer {inner : Ty} (h : inner.isSized = .ok false) :
      ∃ l, inner.layout = .ok l ∧ l.pointer = ⟨some (2 * pointerSize), pointerSize⟩ := by
    obtain ⟨l, hl, hsized⟩ := bind_iff.1 h
    cases hsize : l.size with
    | none => exact ⟨l, hl, by rw [Layout.pointer, hsize]⟩
    | some n =>
      rw [hsize] at hsized
      cases hsized
  unfold isFat at h
  split at h
  · rename_i inner hinner
    obtain ⟨sized, hsized, hflag⟩ := bind_iff.1 h
    cases sized with
    | true => cases hflag
    | false =>
      obtain ⟨l, hl, hlayout⟩ := hpointer hsized
      cases t with
      | rawPtr pointee mutable | ref pointee mutable =>
        cases hinner
        refine size_of_layout (l := l.pointer) ?_ (by rw [hlayout])
        rw [layout, hl]
        rfl
      | _ => cases hinner
  · cases h

end Ty

namespace Machine

/-- The fields of a pair stand one behind the other, with less than an alignment between them. -/
theorem pairFields_eq_ok {ty a b : Ty} {x : Int} (hty : ty.isNonNegative)
    (h : pairFields ty = .ok ((a, x), (b, y))) (ha : a.size = .ok n) (hb : b.size = .ok k) :
    ∃ size, ty.size = .ok size ∧ x = 0 ∧ n ≤ y ∧ y < n + 16 ∧ y + k ≤ size := by
  unfold pairFields at h
  split at h
  · rename_i a' b' hfields
    obtain ⟨offsets, hoffsets, h⟩ := bind_iff.1 h
    split at h
    · cases h
      obtain ⟨⟨_, whole⟩, hplace, ⟨⟩⟩ := bind_iff.1 hoffsets
      have hlayout := Ty.layout_of_place hfields hplace
      obtain ⟨parts, hlawful, hmakes, hsame, hlaid⟩ := Ty.exists_laid hty hfields hlayout
      obtain ⟨p, _, hp, hrest, rfl⟩ := List.forall₂_cons_left_iff.1 hmakes
      obtain ⟨q, _, hq, hnone, rfl⟩ := List.forall₂_cons_left_iff.1 hrest
      obtain rfl := List.forall₂_nil_left_iff.1 hnone
      cases hoffsets.symm.trans hsame
      obtain ⟨l, hl, hn⟩ := Ty.size_eq_ok ha
      obtain ⟨l', hl', hk⟩ := Ty.size_eq_ok hb
      cases hl.symm.trans hp
      cases hl'.symm.trans hq
      have harranged := hlaid.arranged hlawful
      have hfirst := harranged.first p rfl
      obtain ⟨n', hn', ⟨hle, -⟩, hleast⟩ := (List.isChain_cons_cons.1 harranged.next).1
      cases hn.symm.trans hn'
      obtain ⟨size, hsize, hend, -⟩ := harranged.last q rfl k hk
      have hpos := (hlawful q (by simp)).align_pos
      have hbound := hleast (Ty.isLeast_alignUp (p.offset + n) hpos).1
      have hnear := Ty.alignUp_lt (p.offset + n) hpos
      have halign := Ty.layout_align_le hl'
      exact ⟨size, Ty.size_of_layout hlayout hsize, hfirst, by omega, by omega, hend⟩
    · cases h
  · cases h

/-- The destination has the type of a size, and nothing but its bytes may have changed. -/
def Overwrites (p : Pointer) (ty : Ty) (m m' : Machine) : Prop :=
  ∃ size memory, ty.size = .ok size ∧ m' = { m with memory := memory } ∧
    m.memory.Overwrites p size memory

variable {m m' : Machine} {p : Pointer} {ty : Ty} {aligned : Bool}

theorem writeScalar_eq_ok (h : writeScalar p v ty aligned m = .ok () m') :
    ∃ size align memory, ty.size = .ok size ∧ m' = { m with memory := memory } ∧
      Memory.writeScalar p v size align m.memory = .ok () memory := by
  obtain ⟨size, hsize, h⟩ := liftBind_eq_ok.1 h
  obtain ⟨align, h⟩ : ∃ align, onMemory (Memory.writeScalar p v size align) m = .ok () m' := by
    split at h
    · obtain ⟨align, -, h⟩ := liftBind_eq_ok.1 h
      exact ⟨align, h⟩
    · exact ⟨_, h⟩
  obtain ⟨memory, hwrite, rfl⟩ := onMemory_eq_ok h
  exact ⟨size, align, memory, hsize, rfl, hwrite⟩

section Compact

variable (hm : m.memory.Compact) (hty : ty.isNonNegative)
include hm hty

theorem overwrites_writeScalar (h : writeScalar p v ty aligned m = .ok () m') :
    m.Overwrites p ty m' := by
  obtain ⟨size, align, memory, hsize, rfl, hwrite⟩ := writeScalar_eq_ok h
  have hpos : 0 ≤ size := Ty.Fits.size_nonneg (fun _ => hty) hsize trivial
  exact ⟨size, memory, hsize, rfl, (Memory.overwrites_writeScalar hm hpos hwrite).1⟩

theorem overwrites_writePair {first second : Scalar}
    (h : writePair p first second ty aligned m = .ok () m') : m.Overwrites p ty m' := by
  obtain ⟨fat, hfat, h⟩ := liftBind_eq_ok.1 h
  cases fat with
  | true =>
    obtain ⟨_, m1, hfirst, h⟩ := bind_eq_ok.1 h
    obtain ⟨r, hr, hsecond⟩ := liftBind_eq_ok.1 h
    obtain ⟨memory, hwrite, rfl⟩ := onMemory_eq_ok hfirst
    obtain ⟨memory', hwrite', rfl⟩ := onMemory_eq_ok hsecond
    have hp : p.offsetBy 0 = .ok p := by
      obtain ⟨-, id, offset, rfl, hbound, -⟩ := Memory.overwrites_writeScalar hm (by decide) hwrite
      exact Pointer.offsetBy_known id (d := 0) (by omega)
    exact ⟨_, memory', Ty.size_of_isFat hfat, rfl, Memory.overwrites_pair hm (by decide) (by decide)
      (by decide) (by decide) (by decide) hp hwrite hr hwrite'⟩
  | false =>
    obtain ⟨⟨⟨a, x⟩, b, y⟩, hfields, h⟩ := liftBind_eq_ok.1 h
    obtain ⟨q, hq, h⟩ := liftBind_eq_ok.1 h
    obtain ⟨_, m1, hfirst, h⟩ := bind_eq_ok.1 h
    obtain ⟨r, hr, hsecond⟩ := liftBind_eq_ok.1 h
    obtain ⟨n, align, memory, hn, rfl, hwrite⟩ := writeScalar_eq_ok hfirst
    obtain ⟨k, align', memory', hk, rfl, hwrite'⟩ := writeScalar_eq_ok hsecond
    obtain ⟨size, hsize, rfl, hnext, hnear, hend⟩ := pairFields_eq_ok hty hfields hn hk
    obtain ⟨ha, hb⟩ := pairFields_fits (P := True) (fun _ => hty) hfields
    exact ⟨size, memory', hsize, rfl, Memory.overwrites_pair hm (ha.size_nonneg hn trivial)
      (hb.size_nonneg hk trivial) hnext hnear hend hq hwrite hr hwrite'⟩

theorem overwrites_writeValue {v : Value} (h : writeValue p v ty aligned m = .ok () m') :
    m.Overwrites p ty m' := by
  obtain ⟨size, hsize, h⟩ := liftBind_eq_ok.1 h
  have hpos : 0 ≤ size := Ty.Fits.size_nonneg (fun _ => hty) hsize trivial
  have hsame : m.Overwrites p ty m := ⟨size, m.memory, hsize, rfl, .refl hm.toRegular p size⟩
  cases v with
  | one v =>
    dsimp only at h
    split at h
    · exact overwrites_writeScalar hm hty h
    · cases h
      exact hsame
  | pair first second =>
    dsimp only at h
    split at h
    · exact overwrites_writePair hm hty h
    · cases h
      exact hsame
  | inMemory source =>
    obtain ⟨align, h⟩ : ∃ align, onMemory (Memory.copyBytes source p size align) m = .ok () m' := by
      dsimp only at h
      split at h
      · obtain ⟨align, -, h⟩ := liftBind_eq_ok.1 h
        exact ⟨align, h⟩
      · exact ⟨_, h⟩
    obtain ⟨memory, hcopy, rfl⟩ := onMemory_eq_ok h
    exact ⟨size, memory, hsize, rfl, Memory.overwrites_copyBytes hm hpos hcopy⟩

end Compact

end Machine
end SymExec

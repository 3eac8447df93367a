import SymExec.Proofs.Unchanged
import SymExec.Proofs.Word

/-!
# Plain values in slots

A value that is a word, known or symbolic, is written to a slot as plain bytes. The slot then shows these
bytes, and no other range shows anything new, unless it shares a stored pointer with the slot
(`Memory.fills_writeScalar`). Nothing is assumed of the memory: where the marks of an allocation end
too early, the bytes count as defined.
-/
namespace SymExec

open Run Section List

variable {r : Nat × Pointer}

namespace Scalar

variable {s : Store} {kind : Kind} {a : Scalar}

theorem Fits.exists_cells (h : a.Fits s kind) : ∃ list : List Cell, list.length = kind.numBytes ∧
    (∀ (b : Allocation) (offset : Nat), b.put offset kind.numBytes a = b.write offset list) ∧
    ∀ v, a.word? v kind = some (BitVec.ofNat kind.bits (Cell.valueOf v list)) := by
  cases h with
  | bits p =>
    refine ⟨Cell.ofNat p.toNat kind.numBytes, Cell.length_ofNat _ _, fun b offset => ?_, fun v => ?_⟩
    · rw [Allocation.put, Int.toNat_natCast]
    · rw [word?, Cell.valueOf_ofNat, pow_numBytes, ← BitVec.ofNat_toNat]
      congr 1
      apply BitVec.eq_of_toNat_eq
      rw [BitVec.toNat_ofNat, BitVec.toNat_ofNat, Nat.mod_mod]
  | @cells list hlength hscope => exact ⟨list, hlength, fun b offset => rfl, fun v => rfl⟩

end Scalar

namespace Memory

open Allocation

variable {m m' : Memory} {id offset i start : Nat} {size n k : Int} {q : Pointer} {kind : Kind}
  {cells : List Cell} {size' : Int} {s : Store} {m'' : Memory} {a : Scalar}

/-! ## Slots that are filled -/

/-- Plain bytes were written to a range: ranges that are separate from it show what they did, and no
pointer is new. -/
structure Fills (m m' : Memory) (id offset : Nat) (size : Int) : Prop where
  excerpt : ∀ {q : Pointer} {n : Int}, 0 ≤ n → m.Separate id offset size q n →
    ∀ k, m'.excerpt q n k = m.excerpt q n k
  pointers : ∀ {i : Nat} {b : Allocation}, m'.find? i = some b →
    ∃ a, m.find? i = some a ∧ ∀ r ∈ b.relocations, r ∈ a.relocations

theorem Fills.of_allocs (id offset : Nat) (size : Int) (h : m'.allocs = m.allocs) :
    m.Fills m' id offset size := by
  refine ⟨fun _ _ k => excerpt_congr h _ _ k, fun {i b} hb => ⟨b, ?_, fun r hr => hr⟩⟩
  rwa [find?, ← h]

theorem Separate.fills (hseparate : m.Separate id offset size q n) (h : m.Fills m' i start size') :
    m'.Separate id offset size q n := by
  intro o ho
  obtain ⟨hapart, hclear⟩ := hseparate o ho
  refine ⟨hapart, fun b hb r hr => ?_⟩
  obtain ⟨a, ha, hsub⟩ := h.pointers hb
  exact hclear a ha r (hsub r hr)

/-- A range that holds another one is filled with it. -/
theorem Fills.widen (h : m.Fills m' id offset size) (hsize : 0 ≤ size) (hlow : start ≤ offset)
    (hhigh : (offset : Int) + size ≤ start + n) : m.Fills m' id start n := by
  refine ⟨fun hn hseparate => h.excerpt hn fun o ho => ?_, h.pointers⟩
  obtain ⟨hapart, hclear⟩ := hseparate o ho
  refine ⟨by omega, fun a ha r hr hcut => hclear a ha r hr ?_⟩
  simp only [overlaps, Bool.and_eq_true, decide_eq_true_eq] at hcut ⊢
  omega

theorem Fills.trans (h : m.Fills m' id offset size) (h' : m'.Fills m'' id offset size) :
    m.Fills m'' id offset size := by
  refine ⟨fun hn hseparate k => ?_, fun hb => ?_⟩
  · exact (h'.excerpt hn (hseparate.fills h) k).trans (h.excerpt hn hseparate k)
  · obtain ⟨a', ha', hsub'⟩ := h'.pointers hb
    obtain ⟨a, ha, hsub⟩ := h.pointers ha'
    exact ⟨a, ha, fun r hr => hsub r (hsub' r hr)⟩

/-- Ranges that are separate from two others are read as before. -/
def ReadsKept (m m' : Memory) (id offset : Nat) (size : Int) (i start : Nat) (size' : Int) : Prop :=
  ∀ (q : Pointer) (n k : Int), 0 ≤ n → m.Separate id offset size q n → m.Separate i start size' q n →
    m'.readBytes q n k = m.readBytes q n k ∧
      ∀ kind, m'.readScalar q n kind k = m.readScalar q n kind k

theorem Fills.readsKept (h : m.Fills m' id offset size) (h' : m'.Fills m'' i start size') :
    m.ReadsKept m'' id offset size i start size' :=
  fun _ _ k hn hfirst hsecond =>
    reads_eq_of_excerpt ((h'.excerpt hn (hsecond.fills h) k).trans (h.excerpt hn hfirst k))

theorem fills_write (hle : ∀ a, m.find? id = some a → offset + cells.length ≤ a.size) :
    m.Fills (m.update id fun a => a.write offset cells) id offset cells.length := by
  refine ⟨fun hn hseparate k => ?_, fun {i b} hb => ?_⟩
  · exact Alters.excerpt_eq ⟨_, rfl, fun a ha => changes_write (hle a ha)⟩ hn hseparate k
  · rw [find?_update] at hb
    obtain ⟨a, ha, rfl⟩ := Option.map_eq_some_iff.1 hb
    refine ⟨a, ha, fun r hr => ?_⟩
    split at hr
    · exact (mem_filter.1 hr).1
    · exact hr

theorem excerpt_written {x : Nat × Nat × Allocation}
    (hchecked : m.checked (.known id offset) cells.length k = .ok x) :
    (m.update id fun a => a.write offset cells).excerpt (.known id offset) cells.length k
      = .ok ⟨cells, true, []⟩ := by
  obtain ⟨id', offset', a⟩ := x
  obtain ⟨⟨⟩, hfind, hin⟩ := checked_eq_ok hchecked
  have hle : offset + cells.length ≤ a.size := by omega
  have hchanges (b : Allocation) (hb : m.find? id = some b) :
      Changes offset cells.length b (b.write offset cells) := by
    cases hfind.symm.trans hb
    exact changes_write hle
  rw [excerpt, checked_update hchanges, hchecked]
  simp only [Except.map, if_true]
  rw [excerpt_write hle]

theorem fills_writeScalar (ha : a.Fits s kind)
    (h : writeScalar (.known id offset) a kind.numBytes k m = .ok () m') :
    m.Fills m' id offset kind.numBytes ∧ m'.store = m.store ∧ ∃ list : List Cell,
      m'.excerpt (.known id offset) kind.numBytes k = .ok ⟨list, true, []⟩ ∧
      ∀ v, a.word? v kind = some (BitVec.ofNat kind.bits (Cell.valueOf v list)) := by
  obtain ⟨list, hlength, hput, hword⟩ := ha.exists_cells
  have hpos := kind.numBytes_pos
  obtain ⟨id', offset', b, hchecked, -, hm'⟩ := writeScalar_eq_ok (Int.natCast_nonneg _) h
  obtain ⟨⟨⟩, hfind, hin⟩ := checked_eq_ok hchecked
  rw [if_neg (by omega)] at hm'
  simp only [hput] at hm'
  subst hm'
  rw [← hlength] at hin hchecked ⊢
  refine ⟨fills_write fun c hc => ?_, rfl, list, excerpt_written hchecked, hword⟩
  cases hfind.symm.trans hc
  omega

/-! ## Slots that show plain bytes -/

/-- A slot of a kind, which is aligned, shows plain bytes. -/
def Shows (m : Memory) (p : Pointer) (kind : Kind) (list : List Cell) : Prop :=
  m.excerpt p kind.numBytes kind.numBytes = .ok ⟨list, true, []⟩

variable {p : Pointer} {list : List Cell}

theorem Shows.readScalar (h : m.Shows p kind list) :
    m.readScalar p kind.numBytes kind kind.numBytes = .ok (.ofCells list kind) := by
  rw [readScalar_eq_bind, h]
  rfl

theorem exists_shows (ha : a.Fits s kind)
    (h : m.readScalar p kind.numBytes kind kind.numBytes = .ok a) :
    ∃ list, m.Shows p kind list ∧ a = .ofCells list kind := by
  rw [readScalar_eq_bind] at h
  obtain ⟨⟨list, defined, pointers⟩, hexcerpt, hscalar⟩ := bind_iff.1 h
  unfold Excerpt.scalar at hscalar
  split at hscalar
  · rename_i hpointers
    cases hpointers
    cases defined with
    | true =>
      cases hscalar
      exact ⟨list, hexcerpt, rfl⟩
    | false =>
      cases hscalar
      cases ha
  · split at hscalar
    · cases hscalar
      cases ha
    · cases hscalar
  · cases hscalar

theorem Shows.overlaps_eq_false (h : m.Shows (.known id start) kind list) {a : Allocation}
    (hfind : m.find? id = some a) (hr : r ∈ a.relocations) :
    overlaps start (start + kind.numBytes) r.1 = false := by
  unfold Shows Memory.excerpt at h
  cases hchecked : m.checked (.known id start) kind.numBytes kind.numBytes with
  | error e =>
    rw [hchecked] at h
    cases h
  | ok x =>
    rw [hchecked] at h
    obtain ⟨id', start', b⟩ := x
    obtain ⟨⟨⟩, hfound, -⟩ := checked_eq_ok hchecked
    cases hfind.symm.trans hfound
    have hnone : a.pointersIn start (start + kind.numBytes) = [] :=
      map_eq_nil_iff.1 (congrArg Excerpt.pointers (Except.ok.inj h))
    simpa using filter_eq_nil_iff.1 hnone r hr

theorem Shows.fills (h : m.Shows (.known i start) kind list) (hfills : m.Fills m' id offset size)
    (hapart : i = id → (start : Int) + kind.numBytes ≤ offset ∨ (offset : Int) + size ≤ start) :
    m'.Shows (.known i start) kind list := by
  refine (hfills.excerpt (Int.natCast_nonneg _) ?_ _).trans h
  rintro start' ⟨⟩
  exact ⟨.inr (hapart rfl), fun a ha r hr _ => h.overlaps_eq_false ha hr⟩

end Memory
end SymExec

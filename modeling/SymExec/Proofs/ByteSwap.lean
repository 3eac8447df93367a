import SymExec.Proofs.Canonical
import SymExec.Proofs.Mirror.Memory

/-!
# Swapping the bytes of a value

Symbolic bytes are swapped as they stand, a pattern through the number that its low bytes spell in reverse
order. The two agree: a canonical pattern is spelled by its own low bytes (`Scalar.under_ofNat`), and
symbolic bytes may be given values before or after they are swapped (`Operator.swapBytes_under`). So a
second swap undoes the first (`Operator.swapBytes_involution`).
-/
namespace SymExec

open Scalar Cell

variable {kind : Kind} {list : List Cell} {p q : BitVec 128}

theorem Scalar.under_ofNat (v : Valuation) (h : Canonical kind (bits p)) :
    (cells (Cell.ofNat p.toNat kind.numBytes)).under v kind = bits p := by
  rw [under, valueOf_ofNat, ← h]
  apply ofBits_congr
  rw [BitVec.ofInt_natCast, BitVec.ofInt_natCast, pow_numBytes]
  exact BitVec.eq_of_toNat_eq (by simp)

theorem Cell.getElem?_ofNat (value : Nat) {n i : Nat} (hi : i < n) :
    (ofNat value n)[i]? = some (known (BitVec.ofNat 8 (value / 256 ^ i))) := by
  induction n generalizing value i with
  | zero => omega
  | succ n ih =>
    cases i with
    | zero => simp [ofNat]
    | succ i => rw [ofNat, List.getElem?_cons_succ, ih _ (by omega), Nat.div_div_eq_div_mul, Nat.pow_succ']

namespace Operator

/-- The bytes may be swapped before or after they have values. -/
theorem swapBytes_under (v : Valuation) (h : list.length = kind.numBytes) :
    swapBytes ((cells list).under v kind) kind = .ok ((cells list.reverse).under v kind) := by
  obtain ⟨p, hp, -⟩ := ofBits_eq_bits (valueOf v list) kind
  have hlow : p.toNat % 256 ^ list.length = valueOf v list := by
    rw [h, toNat_ofBits hp, ← h, Nat.mod_eq_of_lt (valueOf_lt v list)]
  rw [under, hp]
  change Except.ok (ofBits (valueOf _ (ofNat p.toNat kind.numBytes).reverse) kind) = _
  rw [← h, ofNat_eq_ground hlow, ← List.map_reverse, valueOf_ground, under]

/-- The low bytes of a swapped pattern are those of the pattern in reverse order. -/
theorem ofNat_of_swapBytes (h : swapBytes (bits p) kind = .ok (bits q)) :
    ofNat q.toNat kind.numBytes = (ofNat p.toNat kind.numBytes).reverse := by
  let low := ofNat p.toNat kind.numBytes
  have hlength : low.reverse.length = kind.numBytes := by simp [low]
  have hq : ofBits (valueOf (fun _ => 0) low.reverse) kind = bits q := Except.ok.inj h
  have hlow : q.toNat % 256 ^ low.reverse.length = valueOf (fun _ => 0) low.reverse := by
    rw [hlength, toNat_ofBits hq, ← hlength, Nat.mod_eq_of_lt (valueOf_lt _ _)]
  have hground : ofNat q.toNat low.reverse.length = low.reverse := by
    rw [ofNat_eq_ground hlow, List.map_reverse, Memory.ground_ofNat]
  rwa [hlength] at hground

theorem extract_swapBytes (h : swapBytes (bits p) kind = .ok (bits q)) {i : Nat} (hi : i < kind.numBytes) :
    q.extractLsb' (8 * i) 8 = p.extractLsb' (8 * (kind.numBytes - 1 - i)) 8 := by
  have hbyte (x : BitVec 128) (i : Nat) :
      x.extractLsb' (8 * i) 8 = BitVec.ofNat 8 (x.toNat / 256 ^ i) := by
    rw [BitVec.extractLsb', Nat.shiftRight_eq_div_pow, Nat.pow_mul]
  have hsame := congrArg (·[i]?) (ofNat_of_swapBytes h)
  simp only [List.getElem?_reverse (show i < (ofNat p.toNat kind.numBytes).length by simpa using hi),
    length_ofNat] at hsame
  rw [getElem?_ofNat _ hi, getElem?_ofNat _ (by omega)] at hsame
  rw [hbyte, hbyte]
  simpa using hsame

/-- For every kind: swapping the bytes of a canonical value that is no pointer gives a canonical value,
and swapping them again gives the value back. Byte `i` of a swapped pattern is byte `i` of the pattern
from the other end. Symbolic bytes are swapped one by one, and their values make what the swapped value
is. -/
theorem swapBytes_involution (kind : Kind) :
    (∀ v, Canonical kind v → v.isPtr = false →
      ∃ w, swapBytes v kind = .ok w ∧ Canonical kind w ∧ swapBytes w kind = .ok v) ∧
    (∀ p, ∃ q, swapBytes (bits p) kind = .ok (bits q) ∧ Canonical kind (bits q) ∧
      ∀ i < kind.numBytes, q.extractLsb' (8 * i) 8 = p.extractLsb' (8 * (kind.numBytes - 1 - i)) 8) ∧
    (∀ list : List Cell, list.length = kind.numBytes →
      swapBytes (cells list) kind = .ok (cells list.reverse) ∧
      ∀ v, swapBytes ((cells list).under v kind) kind = .ok ((cells list.reverse).under v kind)) := by
  refine ⟨fun v hv hptr => ?_, fun p => ?_, fun list h => ⟨rfl, fun v => swapBytes_under v h⟩⟩
  · cases v with
    | undef => exact ⟨.undef, rfl, trivial, rfl⟩
    | ptr _ => cases hptr
    | cells list =>
      refine ⟨.cells list.reverse, rfl, (List.length_reverse ..).trans hv, ?_⟩
      rw [swapBytes, List.reverse_reverse]
    | bits p =>
      let low := Cell.ofNat p.toNat kind.numBytes
      have hlow : low.length = kind.numBytes := Cell.length_ofNat _ _
      have hp : (cells low).under (fun _ => 0) kind = bits p := under_ofNat _ hv
      have hfirst := swapBytes_under (fun _ => 0) hlow
      have hsecond := swapBytes_under (fun _ => 0) ((List.length_reverse ..).trans hlow)
      rw [hp] at hfirst
      rw [List.reverse_reverse, hp] at hsecond
      exact ⟨_, hfirst, canonical_ofBits _ kind, hsecond⟩
  · obtain ⟨q, hq, -⟩ := ofBits_eq_bits
      (Cell.valueOf (fun _ => 0) (Cell.ofNat p.toNat kind.numBytes).reverse) kind
    have h : swapBytes (bits p) kind = .ok (bits q) := congrArg Except.ok hq
    exact ⟨q, h, hq ▸ canonical_ofBits _ kind, fun i hi => extract_swapBytes h hi⟩

/-- Minus two in sixteen bits, and a symbolic byte above a known one. -/
theorem swapBytes_involution_sample :
    let kind : Kind := .int .w16 true
    let a : Scalar := .ofBits (-2) kind
    let b : List Cell := [.known 1, .symbol 0]
    Canonical kind a ∧ a.isPtr = false ∧ b.length = kind.numBytes ∧
    (∃ w, swapBytes a kind = .ok w ∧ Canonical kind w ∧ swapBytes w kind = .ok a) ∧
    ∀ v, swapBytes ((cells b).under v kind) kind = .ok ((cells b.reverse).under v kind) := by
  intro kind a b
  obtain ⟨hagain, -, hcells⟩ := swapBytes_involution kind
  exact ⟨by decide, rfl, rfl, hagain a (by decide) rfl, (hcells b rfl).2⟩

end Operator
end SymExec

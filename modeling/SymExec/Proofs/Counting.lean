import SymExec.Proofs.Operation

/-!
# Counts of bits

The count of the bits of a symbolic word is a term that goes over the places of the word. Under all
values of the symbolic bytes that agree with what the store records, it is what an intrinsic counts in
the word that the bytes spell, and no count is too large for the width of the word
(`Machine.countBits_agrees`).
-/
namespace SymExec

open Run

namespace Store

variable {s : Store} {kind : Kind}

/-- What is recorded for a word stands for its count. -/
theorem countBits_under {a : Scalar} (way : BitCount) (ha : a.Fits s kind) : ∃ r s',
    countBits way a kind s = .ok r s' ∧ ∀ v, s'.Satisfied v →
      ∃ p, a.under v kind = .bits p ∧
        r.under v kind = .ofBits (Operator.bitCount way (p.setWidth kind.bits)) kind := by
  obtain ⟨t, ht, hvalue⟩ := term_of_fits ha
  obtain ⟨r, s', hderive, hr⟩ := derive_under kind (.count way t) s
  refine ⟨r, s', bind_eq_ok.2 ⟨s, s, rfl, bind_eq_ok.2 ⟨t, s, of_eq_ok.2 ⟨ht, rfl⟩, hderive⟩⟩,
    fun v hv => ?_⟩
  obtain ⟨p, hp, heval⟩ := hvalue v
  have hcount : (Term.count way t).eval v = way.eval (t.eval v) := rfl
  refine ⟨p, hp, ?_⟩
  rw [hr v hv, hcount, BitCount.toNat_eval, heval]

end Store

theorem Kind.number_ofInt_le {kind : Kind} {n : Nat} (h : n ≤ kind.bits) :
    kind.number (BitVec.ofInt kind.bits n) = n := by
  have hbits := kind.le_bits
  have hhalf : kind.bits < 2 ^ (kind.bits - 1) := by
    have hquarter : kind.bits - 2 < 2 ^ (kind.bits - 2) := Nat.lt_two_pow_self
    have hdouble : 2 ^ (kind.bits - 1) = 2 * 2 ^ (kind.bits - 2) := by
      rw [← Nat.pow_succ', show (kind.bits - 2).succ = kind.bits - 1 by omega]
    omega
  have hroom : (n : Int) < 2 ^ (kind.bits - 1) := by exact_mod_cast Nat.lt_of_le_of_lt h hhalf
  have hwhole := kind.two_pow_bits
  refine number_ofInt_eq_iff.2 ?_
  unfold least greatest
  cases kind.isSigned with
  | true =>
    simp only [if_true]
    omega
  | false =>
    simp only [Bool.false_eq_true, if_false]
    omega

namespace Machine

/-- A known word is counted as arithmetic on its number says, if zero is no word that the intrinsic
refuses. -/
theorem countBits_of_bits {c : IntrinsicCall} {kind : Kind} {way : BitCount} {nonzero : Bool}
    {m m' : Machine} {p : BitVec 128} (hkind : c.kind = .ok kind) (hprim : c.prim 0 m = .ok (.bits p) m')
    (hzero : nonzero = true → p.setWidth kind.bits ≠ 0#_) :
    countBits c way nonzero m
      = c.result (.ofBits (Operator.bitCount way (p.setWidth kind.bits)) kind) m' := by
  have hpasses : (nonzero && p.setWidth kind.bits == 0) = false := by
    cases nonzero with
    | true => exact beq_false_of_ne (hzero rfl)
    | false => rfl
  have hread : (liftM c.kind : Run Machine Kind) m = .ok kind m := of_eq_ok.2 ⟨hkind, rfl⟩
  unfold countBits
  rw [bind_of_ok hread, bind_of_ok hprim]
  change (if (nonzero && p.setWidth kind.bits == 0) = true then _ else _ : Run Machine Unit) m' = _
  rw [hpasses]
  rfl

/-- The count of the bits of a symbolic word is recorded. Under all values that agree with the
definitions it is what arithmetic counts in the word that the bytes spell: the number of its ones, or
of the zeros above or below them. An intrinsic gives it for that word, unless the word is a zero that
it refuses. -/
theorem countBits_agrees {s : Store} {kind : Kind} {list : List Cell} (way : BitCount)
    (hfits : (Scalar.cells list).Fits s kind) : ∃ r s',
    Store.countBits way (.cells list) kind s = .ok r s' ∧
      ∀ v, (∀ d ∈ s'.definitions, d.satisfied v) →
        let x := BitVec.ofNat kind.bits (Cell.valueOf v list)
        let n := Operator.bitCount way x
        r.under v kind = .ofBits n kind ∧ (r.under v kind).toNumber kind = .ok n ∧ way.Counts x n ∧
        ∀ (c : IntrinsicCall) (nonzero : Bool) (m m' : Machine), c.kind = .ok kind →
          c.prim 0 m = .ok ((Scalar.cells list).under v kind) m' → (nonzero = true → x ≠ 0#_) →
          countBits c way nonzero m = c.result (r.under v kind) m' := by
  obtain ⟨r, s', hcount, hunder⟩ := Store.countBits_under way hfits
  refine ⟨r, s', hcount, fun v hv => ?_⟩
  obtain ⟨p, hp, hr⟩ := hunder v hv
  intro x n
  have hword : p.setWidth kind.bits = x := Scalar.setWidth_of_under hp
  rw [hword] at hr
  rw [hr, hp]
  have hcounts : way.Counts x n := way.counts_bitCount x
  refine ⟨rfl, ?_, hcounts, ?_⟩
  · rw [Operator.toNumber_ofBits, Kind.number_ofInt_le hcounts.le]
  · intro c nonzero m m' hkind hprim hzero
    rw [countBits_of_bits hkind hprim (hword ▸ hzero), hword]

/-- The zeros below the lowest one of a word whose high byte is known. -/
theorem countBits_agrees_sample :
    let s : Store := { segments := [.input 1] }
    let kind : Kind := .int .w16 false
    let list : List Cell := [.symbol 0, .known 1]
    let call : Valuation → IntrinsicCall := fun v =>
      { intrinsic := .trailingZeros true, callee := "cttz_nonzero"
        args := [⟨.one ((Scalar.cells list).under v kind), .int .w16 false false⟩]
        dest := none, typeArgs := [] }
    (Scalar.cells list).Fits s kind ∧ ∃ r s',
      Store.countBits .trailingZeros (.cells list) kind s = .ok r s' ∧
      ∀ v, (∀ d ∈ s'.definitions, d.satisfied v) →
        let x := BitVec.ofNat kind.bits (Cell.valueOf v list)
        let n := Operator.bitCount .trailingZeros x
        r.under v kind = .ofBits n kind ∧ (r.under v kind).toNumber kind = .ok n ∧
        BitCount.trailingZeros.Counts x n ∧
        ∀ m, countBits (call v) .trailingZeros true m = (call v).result (r.under v kind) m := by
  intro s kind list call
  have hfits : (Scalar.cells list).Fits s kind := .cells rfl (by decide)
  obtain ⟨r, s', hcount, hagrees⟩ := countBits_agrees .trailingZeros hfits
  refine ⟨hfits, r, s', hcount, fun v hv => ?_⟩
  obtain ⟨hvalue, hnumber, hcounts, hcall⟩ := hagrees v hv
  have hnonzero : BitVec.ofNat 16 (Cell.valueOf v list) ≠ 0#16 := by
    have hbytes : Cell.valueOf v list = (v 0).toNat + 256 := rfl
    have hbyte := (v 0).isLt
    rw [Ne, BitVec.toNat_eq, BitVec.toNat_ofNat, BitVec.toNat_ofNat, hbytes]
    omega
  exact ⟨hvalue, hnumber, hcounts, fun m => hcall (call v) true m m rfl rfl fun _ => hnonzero⟩

end Machine
end SymExec

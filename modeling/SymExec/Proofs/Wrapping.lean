import SymExec.Proofs.Mirror.Operator
import Mathlib.Data.Int.ModEq

/-!
# Casts of known integers

A cast of a known value to an integer type gives the one number of the type that has the same low bits
(`Kind.IsResidue`), as a pattern that is extended by its sign or by zeros. So a value that goes to a type
that is not wider and back keeps the low bits only, and a type in the middle makes no difference if it
is as wide as the last one or has the number in its range (`Cast.cast_known_int`).
-/
namespace SymExec

namespace Kind

variable {kind : Kind} {x y z : Int}

/-- `z` is the number of a kind with the low bits of `x`. -/
def IsResidue (kind : Kind) (x z : Int) : Prop :=
  (kind.least ≤ z ∧ z ≤ kind.greatest) ∧ z ≡ x [ZMOD 2 ^ kind.bits]

theorem ofInt_eq_iff {w : Nat} : BitVec.ofInt w x = BitVec.ofInt w y ↔ x ≡ y [ZMOD 2 ^ w] := by
  have hpos : (0 : Int) < 2 ^ w := Int.pow_pos (by decide)
  have hx := Int.emod_nonneg x hpos.ne'
  have hy := Int.emod_nonneg y hpos.ne'
  rw [BitVec.toNat_eq, BitVec.toNat_ofInt, BitVec.toNat_ofInt, Int.ModEq]
  push_cast
  omega

/-- The low bits of a number make a number of a kind, and only that one. -/
theorem isResidue_iff : kind.IsResidue x z ↔ z = kind.number (BitVec.ofInt kind.bits x) := by
  constructor
  · rintro ⟨hrange, hlow⟩
    rw [← ofInt_eq_iff.2 hlow, number_ofInt_eq_iff.2 hrange]
  · rintro rfl
    exact ⟨number_ofInt_eq_iff.1 (by rw [ofInt_number]), ofInt_eq_iff.1 ofInt_number⟩

theorem existsUnique_isResidue (kind : Kind) (x : Int) : ∃! z, kind.IsResidue x z :=
  ⟨_, isResidue_iff.2 rfl, fun _ => isResidue_iff.1⟩

theorem isResidue_toNat {p : BitVec 128} :
    kind.IsResidue p.toNat x ↔ x = Scalar.numberOf kind p := by
  rw [isResidue_iff, BitVec.ofInt_natCast, BitVec.ofNat_toNat, Operator.numberOf_eq_number]

/-- Low bits that are extended by the sign of a kind, or by zeros. -/
def extended (kind : Kind) (word : BitVec kind.bits) (w : Nat) : BitVec w :=
  if kind.isSigned then word.signExtend w else word.setWidth w

theorem ofInt_number_eq_extended (word : BitVec kind.bits) (w : Nat) :
    BitVec.ofInt w (kind.number word) = kind.extended word w := by
  unfold number extended
  split
  · rfl
  · rw [BitVec.ofInt_natCast, BitVec.ofNat_toNat]

end Kind

/-- The pattern of a number that a kind has is the number itself, in 128 bits. -/
theorem Scalar.ofBits_eq_ofInt {kind : Kind} {z : Int}
    (h : kind.least ≤ z ∧ z ≤ kind.greatest) : ofBits z kind = .ofInt z := by
  have hextended := kind.ofInt_number_eq_extended (BitVec.ofInt kind.bits z) 128
  rw [Kind.number_ofInt_eq_iff.2 h] at hextended
  exact congrArg bits hextended.symm

namespace Cast

variable {source dest : Ty} {sk dk : Kind} {p : BitVec 128}

theorem cast_bits (hs : source.category = .int ∨ source.category = .char ∨ source.category = .bool)
    (hd : dest.category = .int) (hsk : source.kind = .ok sk) (hdk : dest.kind = .ok dk) (p : BitVec 128)
    (s : Store) : cast (.bits p) source dest s = .ok (.ofBits (Scalar.numberOf sk p) dk) s := by
  change (liftM (known p source dest) : Run Store Scalar) s = _
  rw [known_int hs hd hsk hdk]
  rfl

/-- What a cast to an integer type gives is read as the number with the same low bits. -/
theorem numberOf_of_ofBits {q : BitVec 128} {x : Int} (h : Scalar.ofBits x dk = .bits q) :
    Scalar.numberOf dk q = dk.number (BitVec.ofInt dk.bits x) := by
  rw [Operator.numberOf_eq_number, Scalar.setWidth_of_ofBits h]

/-- A number that goes to a kind that is not wider and back keeps its low bits. -/
theorem ofBits_narrow (h : dk.bits ≤ sk.bits) (p : BitVec 128) :
    Scalar.ofBits (dk.number (BitVec.ofInt dk.bits (Scalar.numberOf sk p))) sk
      = .ofBits (dk.extended (p.setWidth dk.bits) sk.bits).toNat sk := by
  apply Scalar.ofBits_toNat
  rw [Operator.numberOf_eq_number, Kind.ofInt_number_of_le h, BitVec.setWidth_setWidth_of_le _ h,
    Kind.ofInt_number_eq_extended]

/-- A kind in the middle makes no difference if it has the low bits that are left, or the number. -/
theorem ofBits_through {fk : Kind} {x : Int}
    (h : fk.bits ≤ dk.bits ∨ (dk.least ≤ x ∧ x ≤ dk.greatest)) :
    Scalar.ofBits (dk.number (BitVec.ofInt dk.bits x)) fk = .ofBits x fk := by
  rcases h with hle | hrange
  · apply Scalar.ofBits_congr
    have hlow := (Kind.ofInt_eq_iff.1 (Kind.ofInt_number (a := BitVec.ofInt dk.bits x)))
    exact Kind.ofInt_eq_iff.2 (hlow.of_dvd (pow_dvd_pow 2 hle))
  · rw [Kind.number_ofInt_eq_iff.2 hrange]

/-- A known value of an integer, character or truth type is one number `x`. Its cast to an integer type
gives the one number of that type with the low bits of `x`. Back from a type that is not wider come the
low bits, extended as that type says. A further cast gives what the direct one does if the type in the
middle is as wide as the last one or has `x` in its range. -/
theorem cast_known_int
    (hs : source.category = .int ∨ source.category = .char ∨ source.category = .bool)
    (hsk : source.kind = .ok sk) (p : BitVec 128) (s : Store) :
    (∃! x, sk.IsResidue p.toNat x) ∧ ∀ x, sk.IsResidue p.toNat x →
      ∀ (dest : Ty) (dk : Kind), dest.category = .int → dest.kind = .ok dk →
        (∃! z, dk.IsResidue x z) ∧
        (∀ z, dk.IsResidue x z → cast (.bits p) source dest s = .ok (.ofBits z dk) s ∧
          Scalar.ofBits z dk = .ofInt z) ∧
        ∃ q, cast (.bits p) source dest s = .ok (.bits q) s ∧
          (source.category = .int → dk.bits ≤ sk.bits → cast (.bits q) dest source s
            = .ok (.ofBits (dk.extended (p.setWidth dk.bits) sk.bits).toNat sk) s) ∧
          ∀ (final : Ty) (fk : Kind), final.category = .int → final.kind = .ok fk →
            fk.bits ≤ dk.bits ∨ (dk.least ≤ x ∧ x ≤ dk.greatest) →
            cast (.bits q) dest final s = cast (.bits p) source final s := by
  refine ⟨sk.existsUnique_isResidue _, fun x hx dest dk hd hdk => ?_⟩
  rw [Kind.isResidue_toNat] at hx
  have hcast : cast (.bits p) source dest s = .ok (.ofBits x dk) s := hx ▸ cast_bits hs hd hsk hdk p s
  refine ⟨dk.existsUnique_isResidue x, fun z hz => ⟨?_, Scalar.ofBits_eq_ofInt hz.1⟩, ?_⟩
  · rw [hcast, Scalar.ofBits_congr (Kind.ofInt_eq_iff.2 hz.2)]
  · obtain ⟨q, hq, -⟩ := Scalar.ofBits_eq_bits x dk
    have hnumber := numberOf_of_ofBits hq
    refine ⟨q, hcast.trans (by rw [hq]), fun hint hle => ?_, fun final fk hf hfk h => ?_⟩
    · rw [cast_bits (.inl hd) hint hdk hsk, hnumber, hx, ofBits_narrow hle]
    · rw [cast_bits (.inl hd) hf hdk hfk, hnumber, ofBits_through h, cast_bits hs hf hsk hfk, hx]

/-- The number -257 becomes 255 in an unsigned byte and comes back as 255. From a signed byte it comes
back as -1. -/
theorem cast_known_int_sample :
    let i16 : Ty := .int .w16 true false
    let i8 : Ty := .int .w8 true false
    let p : BitVec 128 := BitVec.ofInt 128 (-257)
    (Kind.int .w16 true).IsResidue p.toNat (-257) ∧ (Kind.int .w8 false).IsResidue (-257) 255 ∧
    ∀ s : Store, cast (.bits p) i16 .u8 s = .ok (.ofInt 255) s ∧
      (∃ q, cast (.bits p) i16 .u8 s = .ok (.bits q) s ∧
        cast (.bits q) .u8 i16 s = .ok (.ofInt 255) s) ∧
      ∃ q, cast (.bits p) i16 i8 s = .ok (.bits q) s ∧ cast (.bits q) i8 i16 s = .ok (.ofInt (-1)) s := by
  intro i16 i8 p
  have hx : (Kind.int .w16 true).IsResidue p.toNat (-257) := ⟨by decide, by decide⟩
  have hz : (Kind.int .w8 false).IsResidue (-257) 255 := ⟨by decide, by decide⟩
  have hint : i16.category = .int ∨ i16.category = .char ∨ i16.category = .bool := .inl rfl
  have hextended (signed : Bool) : Scalar.ofBits ((Kind.int .w8 signed).extended
      (BitVec.setWidth 8 (BitVec.ofInt 128 (-257))) 16).toNat (.int .w16 true)
        = .ofInt (if signed then -1 else 255) := by
    cases signed <;> decide
  refine ⟨hx, hz, fun s => ?_⟩
  obtain ⟨-, hcasts⟩ := cast_known_int hint rfl p s
  obtain ⟨-, hvalue, q, hq, hback, -⟩ := hcasts _ hx .u8 _ rfl rfl
  obtain ⟨-, -, q', hq', hback', -⟩ := hcasts _ hx i8 _ rfl rfl
  obtain ⟨hcast, hpattern⟩ := hvalue _ hz
  refine ⟨hcast.trans (by rw [hpattern]), ⟨q, hq, ?_⟩, q', hq', ?_⟩
  · exact (hback rfl (by decide)).trans (congrArg (EStateM.Result.ok · s) (hextended false))
  · exact (hback' rfl (by decide)).trans (congrArg (EStateM.Result.ok · s) (hextended true))

end Cast
end SymExec

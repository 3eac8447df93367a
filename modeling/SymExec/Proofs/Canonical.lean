import SymExec.Proofs.Rounding
import SymExec.Proofs.Word

/-!
# Canonical values

A value is kept in the form that its kind gives it: a pattern is the extension of its low bits, and
symbolic bytes are as many as the kind has (`Scalar.Canonical`). Patterns are read as numbers and as
truth values without another look at their width, so whatever makes a value has to make a canonical
one. The operators, the casts, the store and reads of memory do (`results_canonical`).

Floating-point values are made by the operations of their format, none of which gives more bits than
the format has (`Binary.Format.IsPattern`).
-/
namespace SymExec

open Run

variable {r v : Scalar} {p : BitVec 128}

/-! ## Patterns of a format -/

namespace Binary.Format

attribute [local instance(2000)] instPowNat

variable {f g : Format} {x y : Nat}

/-- A number with as many bits as the format has. -/
def IsPattern (f : Format) (x : Nat) : Prop := x < 2 ^ f.width

theorem round_le_infinity (f : Format) (num den : Nat) : f.round num den ≤ f.infinity := by
  unfold round
  split
  · exact Nat.zero_le _
  · exact Nat.min_le_right _ _

theorem isPattern_of_lt (h : x < 2 ^ (f.width - 1)) : f.IsPattern x :=
  h.trans_le (Nat.pow_le_pow_right (by decide) (Nat.sub_le _ _))

section

variable (hf : f.Lawful)
include hf

theorem Lawful.isPattern_infinity (s : Bool) : f.IsPattern (f.withSign s f.infinity) :=
  withSign_lt hf hf.infinity_lt s

theorem Lawful.isPattern_zero (s : Bool) : f.IsPattern (f.withSign s 0) :=
  withSign_lt hf (Nat.two_pow_pos _) s

theorem Lawful.isPattern_round (s : Bool) (num den : Nat) :
    f.IsPattern (f.withSign s (f.round num den)) :=
  withSign_lt hf ((f.round_le_infinity num den).trans_lt hf.infinity_lt) s

theorem Lawful.isPattern_ofScaled (s : Bool) (m : Nat) (e : Int) :
    f.IsPattern (f.ofScaled s m e) := by
  unfold ofScaled
  split
  · exact hf.isPattern_round s _ _
  · exact hf.isPattern_round s _ _

theorem Lawful.isPattern_ofSum (n e : Int) (zero : Bool) : f.IsPattern (f.ofSum n e zero) := by
  unfold ofSum
  split
  · exact hf.isPattern_zero zero
  · exact hf.isPattern_ofScaled _ _ _

/-- Twice the quiet bit is the number of magnitudes between a power of two and the next one. -/
theorem Lawful.two_mul_quietBit : 2 * f.quietBit = f.span := by
  have hp := hf.precision
  rw [quietBit, span, ← Nat.pow_succ', show (f.precision - 2).succ = f.precision - 1 by omega]

theorem Lawful.isPattern_defaultNaN : f.IsPattern f.defaultNaN := by
  refine isPattern_of_lt ?_
  have hsum := f.infinity_add_span
  have hquiet := hf.two_mul_quietBit
  have hspan := f.span_pos
  rw [hf.two_pow_width, defaultNaN]
  omega

/-- The quiet bit is set only where it is not set, so that nothing is carried. -/
theorem Lawful.quiet_lt {k : Nat} (hk : f.precision - 1 ≤ k) (h : x < 2 ^ k) :
    f.quiet x < 2 ^ k := by
  unfold quiet
  split
  · exact h
  · rename_i hbit
    have hquiet := hf.two_mul_quietBit
    have hspan := f.span_pos
    obtain ⟨c, hc⟩ : f.span ∣ 2 ^ k := Nat.pow_dvd_pow 2 hk
    have hlow : x % f.span < f.quietBit := by
      have hbit : x / f.quietBit % 2 = 0 := by omega
      rw [← hquiet, Nat.mul_comm, Nat.mod_mul, hbit, Nat.mul_zero, Nat.add_zero]
      exact Nat.mod_lt x (by omega)
    rw [hc] at h ⊢
    have hsplit := Nat.div_add_mod x f.span
    have hstep : f.span * (x / f.span + 1) ≤ f.span * c :=
      Nat.mul_le_mul_left _ (Nat.div_lt_of_lt_mul h)
    rw [Nat.mul_add] at hstep
    omega

theorem Lawful.isPattern_quiet (h : f.IsPattern x) : f.IsPattern (f.quiet x) := by
  have hw := hf.width
  exact hf.quiet_lt (by omega) h

theorem isPattern_convert (hg : g.Lawful) (x : Nat) : g.IsPattern (f.convert g x) := by
  have hp := hf.precision
  have hq := hg.precision
  unfold convert
  split
  · exact hg.isPattern_ofScaled _ _ _
  · exact hg.isPattern_infinity _
  · -- what is kept of the fraction is below the highest bit of the magnitude
    have hfraction : f.magnitude x % 2 ^ (f.precision - 1) < 2 ^ (f.precision - 1) :=
      Nat.mod_lt _ (Nat.two_pow_pos _)
    generalize f.magnitude x % 2 ^ (f.precision - 1) = fraction at hfraction
    have hkept : (if f.precision ≤ g.precision then fraction * 2 ^ (g.precision - f.precision)
        else fraction / 2 ^ (f.precision - g.precision)) < g.span := by
      split
      · have hspan : g.span = 2 ^ (f.precision - 1) * 2 ^ (g.precision - f.precision) := by
          rw [span, ← Nat.pow_add]
          congr 1
          omega
        rw [hspan]
        exact Nat.mul_lt_mul_of_pos_right hfraction (Nat.two_pow_pos _)
      · have hspan : 2 ^ (f.precision - 1) = 2 ^ (f.precision - g.precision) * g.span := by
          rw [span, ← Nat.pow_add]
          congr 1
          omega
        rw [hspan] at hfraction
        exact Nat.div_lt_of_lt_mul hfraction
    have hsum := g.infinity_add_span
    have hw := hg.width
    refine withSign_lt hg (hg.quiet_lt (by omega) ?_) _
    rw [hg.two_pow_width]
    omega

attribute [grind ←] Lawful.isPattern_infinity Lawful.isPattern_zero Lawful.isPattern_round
  Lawful.isPattern_ofScaled Lawful.isPattern_ofSum Lawful.isPattern_defaultNaN Lawful.isPattern_quiet

theorem Lawful.isPattern_add (hx : f.IsPattern x) (hy : f.IsPattern y) :
    f.IsPattern (f.add x y) := by
  unfold add
  grind -ring -linarith

theorem Lawful.isPattern_sub (hx : f.IsPattern x) (hy : f.IsPattern y) :
    f.IsPattern (f.sub x y) := by
  have hnegate : f.IsPattern (f.negate y) := withSign_lt hf (Nat.mod_lt _ (Nat.two_pow_pos _)) _
  unfold sub
  split
  · split
    · exact hf.isPattern_quiet hx
    · exact hf.isPattern_quiet hy
  · exact hf.isPattern_add hx hnegate

theorem Lawful.isPattern_mul (hx : f.IsPattern x) (hy : f.IsPattern y) :
    f.IsPattern (f.mul x y) := by
  unfold mul
  grind -ring -linarith

theorem Lawful.isPattern_div (hx : f.IsPattern x) (hy : f.IsPattern y) :
    f.IsPattern (f.div x y) := by
  unfold div
  grind -ring -linarith

theorem Lawful.isPattern_rem (hx : f.IsPattern x) (hy : f.IsPattern y) :
    f.IsPattern (f.rem x y) := by
  unfold rem
  grind -ring -linarith

end

end Binary.Format

/-! ## Values -/

namespace Scalar

variable {kind : Kind} {a : Scalar} {list : List Cell}

/-- A pattern of a kind is the one that its low bits make, and symbolic bytes are as many as the kind has.
Pointers and undefined values are of no kind in particular. -/
def Canonical (kind : Kind) : Scalar → Prop
  | bits p => ofBits p.toNat kind = bits p
  | cells list => list.length = kind.numBytes
  | ptr _ | undef => True

instance (kind : Kind) : (a : Scalar) → Decidable (Canonical kind a)
  | bits p => inferInstanceAs (Decidable (ofBits p.toNat kind = bits p))
  | cells list => inferInstanceAs (Decidable (list.length = kind.numBytes))
  | ptr _ | undef => inferInstanceAs (Decidable True)

@[grind ←] theorem canonical_ofBits (value : Int) (kind : Kind) : Canonical kind (ofBits value kind) := by
  obtain ⟨p, hp, hlow⟩ := ofBits_eq_bits value kind
  have hword : BitVec.ofInt kind.bits p.toNat = BitVec.ofInt kind.bits value := by
    rw [← hlow, BitVec.ofInt_natCast, BitVec.ofNat_toNat]
  rw [hp, Canonical, ← hp, ofBits, hword]
  rfl

@[grind ←] theorem canonical_ofBool (b : Bool) : Canonical .bool (ofBool b) := by
  cases b <;> rfl

theorem canonical_bits (hsigned : kind.isSigned = false) :
    Canonical kind (bits p) ↔ p.toNat < 2 ^ kind.bits := by
  have hword : p.toNat % 2 ^ kind.bits < 2 ^ 128 := (Nat.mod_le _ _).trans_lt p.isLt
  rw [Canonical, ofBits, hsigned, BitVec.ofInt_natCast, bits.injEq, ← BitVec.toNat_inj]
  simp only [Bool.false_eq_true, if_false, BitVec.toNat_setWidth, BitVec.toNat_ofNat,
    Nat.mod_eq_of_lt hword]
  exact Nat.mod_eq_iff_lt (Nat.two_pow_pos _).ne'

theorem canonical_ofNat {n : Nat} (hsigned : kind.isSigned = false) (h : n < 2 ^ kind.bits) :
    Canonical kind (ofNat n) :=
  (canonical_bits hsigned).2 ((Nat.mod_le n _).trans_lt h)

theorem canonical_ofCells (h : list.length = kind.numBytes) : Canonical kind (ofCells list kind) := by
  unfold ofCells
  split
  · exact canonical_ofBits _ kind
  · exact h

end Scalar

open Scalar

/-! ## Recorded values -/

namespace Store

variable {kind : Kind}

@[grind ←] theorem derive_canonical (kind : Kind) (t : Term kind.bits) :
    Yields (Canonical kind) (derive kind t) := by
  unfold derive
  split
  · exact .pure (canonical_ofBits _ kind)
  · have hcells : Yields (fun cells => cells.length = kind.numBytes)
        (modifyGet (addDerived kind.numBytes t) : Run Store (List Cell)) := by
      rintro s _ _ ⟨⟩
      simp [cellsFrom]
    exact .chain hcells fun _ h => .pure h

theorem binary_canonical (op : BinOp) (lhs rhs : Scalar) (kind : Kind) (rhsKind : Option Kind) :
    Yields (Canonical (op.resultKind kind)) (binary op lhs rhs kind rhsKind) := by
  refine .bind fun s => .bind fun a => .bind fun b => ?_
  cases op with
  | add | sub | mul | div | rem | bitXor | bitAnd | bitOr | shl | shr => exact derive_canonical kind _
  | eq | ne | lt | le | gt | ge => exact derive_canonical .bool _

theorem overflowing_canonical (op : BinOp) (lhs rhs : Scalar) (kind : Kind) :
    Yields (fun r => Canonical kind r.1 ∧ Canonical .bool r.2) (overflowing op lhs rhs kind) := by
  have hrest (wrapped : Term kind.bits) (differs : Condition) :
      Yields (fun r => Canonical kind r.1 ∧ Canonical .bool r.2) (do
        let result ← derive kind wrapped
        let overflowed ← deriveTruth differs
        return (result, overflowed)) :=
    .chain (derive_canonical kind _) fun _ hresult =>
      .chain (derive_canonical .bool _) fun _ hoverflowed => .pure ⟨hresult, hoverflowed⟩
  refine .bind fun s => .bind fun a => .bind fun b => ?_
  cases op <;> exact .bind fun _ => hrest _ _

theorem select_canonical (cond yes no : Scalar) (kind : Kind) :
    Yields (Canonical kind) (select cond yes no kind) :=
  .bind fun _ => .bind fun _ => .bind fun _ => .bind fun _ => derive_canonical kind _

theorem countBits_canonical (way : BitCount) (v : Scalar) (kind : Kind) :
    Yields (Canonical kind) (countBits way v kind) :=
  .bind fun _ => .bind fun _ => derive_canonical kind _

end Store

/-! ## Operators -/

namespace Operator

variable {kind : Kind} {x : Nat} {op : BinOp}

theorem onPointers_canonical {lhs rhs : Scalar} (h : onPointers op lhs rhs = .ok r) :
    Canonical (op.resultKind kind) r := by
  unfold onPointers at h
  split at h
  · cases h
  · rename_i hop
    have hresult : op.resultKind kind = .bool := by
      cases op <;> simp_all [BinOp.resultKind, BinOp.isComparison]
    rw [hresult]
    split at h
    · cases h
      exact canonical_ofBool _
    · split at h
      · cases h
        exact canonical_ofBool _
      · cases h
    · cases h

theorem ofDouble_canonical (hfloat : kind.isFloat) (hx : Binary.double.IsPattern x) :
    Canonical kind (.ofDouble x kind) := by
  unfold Scalar.ofDouble
  cases kind with
  | f32 =>
    refine canonical_ofNat rfl ?_
    exact Binary.Format.isPattern_convert Binary.Format.double_lawful Binary.Format.single_lawful x
  | f64 => exact canonical_ofNat rfl hx
  | _ => cases hfloat

theorem isPattern_toDouble {a : Scalar} (h : a.toDouble kind = .ok x) :
    Binary.double.IsPattern x := by
  cases a with
  | bits p =>
    cases h
    split
    · exact Binary.Format.isPattern_convert Binary.Format.single_lawful Binary.Format.double_lawful _
    · exact (p.setWidth 64).isLt
  | ptr _ | undef | cells _ => cases h

theorem onFloats_canonical {y : Nat} (hfloat : kind.isFloat) (hx : Binary.double.IsPattern x)
    (hy : Binary.double.IsPattern y) (h : onFloats op x y kind = .ok r) :
    Canonical (op.resultKind kind) r := by
  have hd := Binary.Format.double_lawful
  cases op with
  | add =>
    cases h
    exact ofDouble_canonical hfloat (hd.isPattern_add hx hy)
  | sub =>
    cases h
    exact ofDouble_canonical hfloat (hd.isPattern_sub hx hy)
  | mul =>
    cases h
    exact ofDouble_canonical hfloat (hd.isPattern_mul hx hy)
  | div =>
    cases h
    exact ofDouble_canonical hfloat (hd.isPattern_div hx hy)
  | rem =>
    cases h
    exact ofDouble_canonical hfloat (hd.isPattern_rem hx hy)
  | bitXor | bitAnd | bitOr | shl | shr => cases h
  | eq | ne | lt | le | gt | ge =>
    cases h
    exact canonical_ofBool _

theorem onInts_canonical {a b : Int} (h : onInts op a b kind = .ok r) :
    Canonical (op.resultKind kind) r := by
  cases op with
  | div | rem =>
    by_cases hb : b = 0
    · rw [hb] at h
      cases h
    · have hquotient := (if_neg hb).symm.trans h
      cases hquotient
      exact canonical_ofBits _ kind
  | add | sub | mul | bitXor | bitAnd | bitOr | shl | shr =>
    cases h
    exact canonical_ofBits _ kind
  | eq | ne | lt | le | gt | ge =>
    cases h
    exact canonical_ofBool _

theorem binary_canonical (op : BinOp) (lhs rhs : Scalar) (kind : Kind) (rhsKind : Option Kind) :
    Yields (Canonical (op.resultKind kind)) (binary op lhs rhs kind rhsKind) := by
  have hints (a b : Int) : Yields (Canonical (op.resultKind kind))
      (liftM (onInts op a b kind) : Run Store Scalar) := .lift fun _ => onInts_canonical
  unfold binary
  split
  · exact .pure trivial
  split
  · exact .lift fun _ => onPointers_canonical
  split
  · rename_i hfloat
    refine .guard fun _ => .chain (.lift fun _ => isPattern_toDouble) fun x hx => ?_
    refine .chain (.lift fun _ => isPattern_toDouble) fun y hy => ?_
    exact .lift fun _ => onFloats_canonical hfloat hx hy
  split
  · have hrecord := Store.binary_canonical op lhs rhs kind rhsKind
    split
    · exact .guard fun _ => hrecord
    · exact hrecord
  split
  · exact .bind fun _ => .bind fun _ => hints _ _
  · exact .bind fun _ => .bind fun _ => hints _ _

theorem overflowing_canonical (op : BinOp) (lhs rhs : Scalar) (kind : Kind) (rhsKind : Option Kind) :
    Yields (fun r => Canonical kind r.1 ∧ Canonical .bool r.2)
      (overflowing op lhs rhs kind rhsKind) := by
  have hrest (combine : Int → Int → Int) : Yields (fun r => Canonical kind r.1 ∧ Canonical .bool r.2)
      (if lhs.isSymbolic || rhs.isSymbolic then Store.overflowing op lhs rhs kind
      else do
        let value := combine (← lhs.toNumber kind) (← rhs.toNumber kind)
        let result := Scalar.ofBits value kind
        return (result, .ofBool ((← result.toNumber kind) != value))) := by
    split
    · exact Store.overflowing_canonical op lhs rhs kind
    · exact .bind fun _ => .bind fun _ => .bind fun _ =>
        .pure ⟨canonical_ofBits _ kind, canonical_ofBool _⟩
  unfold overflowing
  split
  · exact .pure ⟨trivial, trivial⟩
  refine .guard fun _ => ?_
  split
  · rename_i hshift
    have hkind : op.resultKind kind = kind := by cases op <;> first | rfl | cases hshift
    refine .chain (binary_canonical op lhs rhs kind rhsKind) fun result hresult => .guard fun _ => ?_
    rw [hkind] at hresult
    exact .bind fun _ => .pure ⟨hresult, canonical_ofBool _⟩
  · cases op <;> exact .bind fun _ => hrest _

theorem canonical_flip (hfloat : kind.isFloat) (h : Canonical kind (.bits p)) :
    Canonical kind (.bits (p ^^^ BitVec.ofNat 128 (2 ^ (kind.bits - 1)))) := by
  have hsigned : kind.isSigned = false := by cases kind <;> first | rfl | cases hfloat
  have hsign : 2 ^ (kind.bits - 1) < 2 ^ kind.bits :=
    Nat.pow_lt_pow_right (by decide) (by have := kind.le_bits; omega)
  rw [canonical_bits hsigned] at h ⊢
  rw [BitVec.toNat_xor, BitVec.toNat_ofNat]
  exact Nat.xor_lt_two_pow h ((Nat.mod_le _ _).trans_lt hsign)

theorem unary_canonical (op : UnOp) (hv : Canonical kind v) :
    Yields (Canonical kind) (unary op v kind) := by
  unfold unary
  split
  · exact .pure trivial
  · exact .fail _
  split
  · rename_i hfloat
    refine .guard fun _ => ?_
    split
    · exact .pure (canonical_flip hfloat hv)
    · exact .fail _
  split
  · exact binary_canonical .bitXor _ _ kind none
  · exact binary_canonical .sub _ _ kind none

theorem swapBytes_canonical (hv : Canonical kind v) (h : swapBytes v kind = .ok r) :
    Canonical kind r := by
  cases v with
  | undef =>
    cases h
    exact hv
  | cells list =>
    cases h
    exact (List.length_reverse ..).trans hv
  | bits p =>
    cases h
    exact canonical_ofBits _ kind
  | ptr p => cases h

end Operator

/-! ## Casts -/

namespace Cast

variable {source dest : Ty} {sk dk : Kind} {list : List Cell}

theorem toChar_canonical {n : Int} (h : toChar n = .ok r) : Canonical .char r := by
  unfold toChar at h
  split at h
  · rename_i hn
    cases h
    lift n to Nat using hn.1
    rw [Scalar.ofInt, BitVec.ofInt_natCast]
    exact canonical_ofNat rfl (Nat.lt_of_le_of_lt (Int.ofNat_le.1 hn.2) (by decide))
  · cases h

section

variable (hdest : dest.kind = .ok dk)
include hdest

theorem kind_of_char (h : dest.category = .char) : dk = .char := by
  cases dest with
  | char => exact (Except.ok.inj hdest).symm
  | _ => cases h

theorem kind_of_isPointer (h : isPointer dest) : dk = .ptr ∨ dk = .fnPtr := by
  cases dest with
  | fnPtr _ => exact .inr (Except.ok.inj hdest).symm
  | rawPtr p _ | ref p _ =>
    obtain ⟨sized, -, hdest⟩ := bind_iff.1 hdest
    cases sized with
    | true => exact .inl (Except.ok.inj hdest).symm
    | false => cases hdest
  | _ => cases h

theorem canonical_address (h : isPointer dest) (x : BitVec 64) :
    Canonical dk (.ofNat x.toNat) := by
  rcases kind_of_isPointer hdest h with rfl | rfl
  · exact canonical_ofNat rfl x.isLt
  · exact canonical_ofNat rfl x.isLt

theorem known_canonical (h : known p source dest = .ok r) : Canonical dk r := by
  unfold known at h
  rw [hdest] at h
  split at h
  case h_1 | h_2 | h_3 =>
    obtain ⟨sk, -, ⟨⟩⟩ := bind_iff.1 h
    exact canonical_ofBits _ dk
  case h_4 hchar | h_5 hchar | h_6 hchar =>
    obtain ⟨sk, -, h⟩ := bind_iff.1 h
    rw [kind_of_char hdest hchar]
    exact toChar_canonical h
  case h_7 hfloat =>
    obtain ⟨sk, -, ⟨⟩⟩ := bind_iff.1 h
    cases dest with
    | f32 =>
      cases hdest
      exact canonical_ofNat rfl (Binary.Format.ofInt_lt Binary.Format.single_lawful _)
    | f64 =>
      cases hdest
      exact canonical_ofNat rfl (Binary.Format.ofInt_lt Binary.Format.double_lawful _)
    | _ => cases hfloat
  case h_8 hptr =>
    obtain ⟨sk, -, ⟨⟩⟩ := bind_iff.1 h
    exact canonical_address hdest (by rw [isPointer, hptr]) _
  case h_9 =>
    split at h
    · cases h
      exact canonical_ofBits _ dk
    · cases h
  case h_10 =>
    split at h
    · rename_i hboth
      cases h
      exact canonical_address hdest (Bool.and_eq_true_iff.1 hboth).2 _
    · cases h

omit hdest in
theorem resize_length {r : List Cell} (hlist : list.length = sk.numBytes)
    (h : resize list sk dk = .ok r) : r.length = dk.numBytes := by
  unfold resize at h
  split at h
  · cases h
    rw [List.length_take]
    omega
  split at h
  · split at h
    · cases h
    · cases h
      rw [List.length_append, List.length_replicate]
      omega
  · cases h
    omega

theorem settle_canonical (hlist : list.length = dk.numBytes) (h : settle dest dk list = .ok r) :
    Canonical dk r := by
  have hcells := canonical_ofCells hlist
  unfold settle at h
  split at h
  · rename_i pattern heq
    split at h
    · rename_i hchar
      rw [kind_of_char hdest hchar]
      exact toChar_canonical h
    · cases h
      rwa [heq] at hcells
  · cases h
    exact hcells

theorem symbolic_canonical (hlist : ∀ sk, source.kind = .ok sk → list.length = sk.numBytes) :
    Yields (Canonical dk) (symbolic list source dest) := by
  by_cases hnumber : (source.category = .int ∨ source.category = .char) ∧
      (dest.category = .int ∨ dest.category = .char)
  · obtain ⟨hs, hd⟩ := hnumber
    obtain ⟨sk, hsk⟩ : ∃ sk, source.kind = .ok sk := by
      cases source <;> first | exact ⟨_, rfl⟩ | simp [Ty.category] at hs
    intro s r s' h
    rw [symbolic_eq list hs hd hsk hdest] at h
    obtain ⟨cut, hcut, hsettle⟩ := bind_iff.1 (Returns.liftError ⟨s, s', h⟩)
    exact settle_canonical hdest (resize_length (hlist sk hsk) hcut) hsettle
  · unfold symbolic
    rw [hdest]
    split
    case h_5 =>
      refine .chain (.lift fun k hk => Except.ok.inj hk) ?_
      rintro k rfl
      exact Store.select_canonical _ _ _ dk
    case h_6 => exact .lift fun _ h => by cases h
    all_goals exact absurd (by simp [*]) hnumber

theorem cast_canonical (hv : ∀ sk, source.kind = .ok sk → Canonical sk v) :
    Yields (Canonical dk) (cast v source dest) := by
  cases v with
  | undef => exact .pure trivial
  | ptr p =>
    refine .lift fun r h => ?_
    unfold pointer at h
    split at h
    case h_1 | h_2 =>
      cases h
      exact trivial
    case h_3 =>
      split at h
      · cases h
        exact trivial
      · cases h
    case h_4 => cases h
  | cells list => exact symbolic_canonical hdest hv
  | bits p => exact .lift fun r => known_canonical hdest

end

end Cast

/-! ## Memory -/

theorem Memory.readScalar_canonical {m : Memory} {p : Pointer} {kind : Kind} {align : Int}
    (h : m.readScalar p kind.numBytes kind align = .ok r) : Canonical kind r := by
  obtain ⟨⟨id, offset, a⟩, hchecked, h⟩ := bind_iff.1 h
  obtain ⟨-, -, hle⟩ := checked_eq_ok hchecked
  simp only [pure, Except.pure, throw, throwThe, MonadExceptOf.throw] at h
  split at h
  · split at h
    · cases h
      exact trivial
    · cases h
      exact canonical_ofCells (Section.length_slice _ (Int.natCast_nonneg _) hle)
  · split at h
    · split at h
      · cases h
        exact trivial
      · cases h
    · cases h

/-! ## All results -/

/-- What the operators, the casts, the store and reads of memory give is canonical: at the kind of truth
values for a comparison and for whether an operation overflowed, at the kind of the destination for a
cast, and otherwise at the kind of the operands. Operands need to be canonical only where their bits or
bytes are kept. -/
theorem results_canonical (kind : Kind) :
    (∀ op lhs rhs rhsKind,
      Yields (Canonical (op.resultKind kind)) (Operator.binary op lhs rhs kind rhsKind)) ∧
    (∀ op lhs rhs rhsKind, Yields (fun r => Canonical kind r.1 ∧ Canonical .bool r.2)
      (Operator.overflowing op lhs rhs kind rhsKind)) ∧
    (∀ op v, Canonical kind v → Yields (Canonical kind) (Operator.unary op v kind)) ∧
    (∀ v r, Canonical kind v → Operator.swapBytes v kind = .ok r → Canonical kind r) ∧
    (∀ v source dest, (∀ sk, source.kind = .ok sk → Canonical sk v) → dest.kind = .ok kind →
      Yields (Canonical kind) (Cast.cast v source dest)) ∧
    (∀ cond yes no, Yields (Canonical kind) (Store.select cond yes no kind)) ∧
    (∀ way v, Yields (Canonical kind) (Store.countBits way v kind)) ∧
    ∀ (m : Memory) p align r, m.readScalar p kind.numBytes kind align = .ok r → Canonical kind r :=
  ⟨fun op lhs rhs => Operator.binary_canonical op lhs rhs kind,
    fun op lhs rhs => Operator.overflowing_canonical op lhs rhs kind,
    fun op _ => Operator.unary_canonical op,
    fun _ _ => Operator.swapBytes_canonical,
    fun _ _ _ hv hdest => Cast.cast_canonical hdest hv,
    fun cond yes no => Store.select_canonical cond yes no kind,
    fun way v => Store.countBits_canonical way v kind,
    fun _ _ _ _ => Memory.readScalar_canonical⟩

/-- Minus one is compared and negated, and two symbolic bytes are swapped and cut to one. -/
theorem results_canonical_sample :
    let s : Store := { segments := [.input 2] }
    let kind : Kind := .int .w16 true
    let a : Scalar := .cells [.symbol 0, .symbol 1]
    let b : Scalar := .ofBits (-1) kind
    Canonical kind a ∧ Canonical kind b ∧
    (∃ r s', Operator.binary .lt b b kind none s = .ok r s' ∧ Canonical .bool r) ∧
    (∃ r s', Operator.unary .neg b kind s = .ok r s' ∧ Canonical kind r) ∧
    (∃ r, Operator.swapBytes a kind = .ok r ∧ Canonical kind r) ∧
    ∃ r s', Cast.cast a (.int .w16 true false) (.int .w8 true false) s = .ok r s' ∧
      Canonical (.int .w8 true) r := by
  intro s kind a b
  have ha : Canonical kind a := rfl
  have hb : Canonical kind b := by decide
  obtain ⟨hbinary, -, hunary, hswap, -⟩ := results_canonical kind
  obtain ⟨-, -, -, -, hcast, -⟩ := results_canonical (.int .w8 true)
  have hsource (sk : Kind) (hsk : (Ty.int .w16 true false).kind = .ok sk) : Canonical sk a := by
    cases hsk
    exact ha
  exact ⟨ha, hb, ⟨_, _, rfl, hbinary .lt b b none s _ _ rfl⟩, ⟨_, _, rfl, hunary .neg b hb s _ _ rfl⟩,
    ⟨_, rfl, hswap a _ ha rfl⟩,
    ⟨_, _, rfl, hcast a (.int .w16 true false) (.int .w8 true false) hsource rfl s _ _ rfl⟩⟩

end SymExec

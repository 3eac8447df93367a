import SymExec.Proofs.Operation

/-!
# Casts of symbolic values

A cast of a symbolic number cuts its cells or pads them with zeros, and one of a symbolic truth value
chooses between one and zero. Under all values of the symbolic bytes that agree with what the store
records, a cast to an integer type gives what the cast of the value gives (`Cast.cast_int_agrees`). A
cast to a character checks a number that is known and keeps symbolic bytes as they are
(`Cast.cast_char_checked`).
-/
namespace SymExec

open Run Scalar Kind

theorem Scalar.under_ofCells (v : Valuation) (list : List Cell) (kind : Kind) :
    (ofCells list kind).under v kind = .ofBits (Cell.valueOf v list) kind := by
  unfold ofCells
  split
  · rename_i hknown
    have hvalue : Cell.valueOf (fun _ => 0) list = Cell.valueOf v list :=
      Cell.valueOf_congr fun i hi => by
        rw [List.isEmpty_iff.1 hknown] at hi
        cases hi
    rw [hvalue]
    rfl
  · rfl

theorem Scalar.ofCells_cases (list : List Cell) (kind : Kind) :
    (∃ p, ofCells list kind = .bits p) ∨ ofCells list kind = .cells list := by
  unfold ofCells
  split
  · exact .inl ⟨_, rfl⟩
  · exact .inr rfl

namespace Store

variable {s : Store} {kind : Kind}

/-- What is recorded for a choice stands for the value that the condition chooses. -/
theorem select_under {cond yes no : Scalar} (hcond : cond.Fits s .bool) (hyes : yes.Fits s kind)
    (hno : no.Fits s kind) : ∃ r s', select cond yes no kind s = .ok r s' ∧
      ∀ v, s'.Satisfied v → ∃ c p q, cond.under v .bool = .bits c ∧
        yes.under v kind = .bits p ∧ no.under v kind = .bits q ∧
        r.under v kind = .ofBits (BitVec.setWidth kind.bits
          (if c.setWidth bool.bits = 0#_ then q else p)).toNat kind := by
  obtain ⟨t, ht, hc⟩ := term_of_fits hcond
  obtain ⟨a, ha, hy⟩ := term_of_fits hyes
  obtain ⟨b, hb, hn⟩ := term_of_fits hno
  have htruth : s.truth cond = .ok (.differ t (.const 0)) := bind_iff.2 ⟨t, ht, rfl⟩
  obtain ⟨r, s', hderive, hr⟩ := derive_under kind (.choose (.differ t (.const 0)) a b) s
  refine ⟨r, s', ?_, fun v hv => ?_⟩
  · refine bind_eq_ok.2 ⟨s, s, rfl, bind_eq_ok.2 ⟨_, s, of_eq_ok.2 ⟨htruth, rfl⟩, ?_⟩⟩
    refine bind_eq_ok.2 ⟨a, s, of_eq_ok.2 ⟨ha, rfl⟩, ?_⟩
    exact bind_eq_ok.2 ⟨b, s, of_eq_ok.2 ⟨hb, rfl⟩, hderive⟩
  · obtain ⟨c, hcvalue, hceval⟩ := hc v
    obtain ⟨p, hpvalue, hpeval⟩ := hy v
    obtain ⟨q, hqvalue, hqeval⟩ := hn v
    refine ⟨c, p, q, hcvalue, hpvalue, hqvalue, ?_⟩
    have hholds : (Term.differ t (.const 0)).holds v = (c.setWidth bool.bits != 0#_) := by
      rw [Term.holds_differ, hceval]
      rfl
    rw [hr v hv, Term.eval, Term.eval_of_holds, hholds, hpeval, hqeval]
    by_cases hzero : c.setWidth bool.bits = 0#_
    · rw [if_pos hzero, hzero]
      rfl
    · rw [if_neg hzero, bne_iff_ne.2 hzero]
      rfl

end Store

namespace Cast

variable {source dest : Ty} {sk dk : Kind} {list : List Cell} {s : Store}

/-- A cast of symbolic cells that would have to repeat their sign. -/
def Extends (source dest : Kind) : Prop :=
  source.isSigned = true ∧ source.numBytes < dest.numBytes

theorem resize_of_extends (h : Extends sk dk) : resize list sk dk = .error .signExtension := by
  obtain ⟨hsigned, hwider⟩ := h
  unfold resize
  rw [if_neg (by omega), if_pos hwider, if_pos hsigned]

theorem resize_eq_ok (list : List Cell) (h : ¬ Extends sk dk) : ∃ r, resize list sk dk = .ok r := by
  unfold resize
  split
  · exact ⟨_, rfl⟩
  · split
    · rename_i hwider
      rw [if_neg fun hsigned => h ⟨hsigned, hwider⟩]
      exact ⟨_, rfl⟩
    · exact ⟨_, rfl⟩

/-- What a cast makes of the cells that are left of a number: a character is checked if it is known. -/
def settle (dest : Ty) (kind : Kind) (r : List Cell) : Except EvalError Scalar :=
  match ofCells r kind with
  | .bits pattern =>
    if dest.category = .char then toChar (numberOf kind pattern) else .ok (.bits pattern)
  | a => .ok a

theorem symbolic_eq (list : List Cell) (hs : source.category = .int ∨ source.category = .char)
    (hd : dest.category = .int ∨ dest.category = .char) (hsk : source.kind = .ok sk)
    (hdk : dest.kind = .ok dk) (s : Store) : symbolic list source dest s
      = (liftM (resize list sk dk >>= settle dest dk) : Run Store Scalar) s := by
  have hread {α : Type} (a : α) : (liftM (.ok a : Except EvalError α) : Run Store α) s = .ok a s :=
    rfl
  unfold symbolic
  rw [hsk, hdk]
  rcases hs with hs | hs <;> rcases hd with hd | hd
  all_goals
    simp only [hs, hd]
    rw [bind_of_ok (hread dk), bind_of_ok (hread sk)]
    cases resize list sk dk with
    | error e => rfl
    | ok r =>
      rw [bind_of_ok (hread r), show (Except.ok r >>= settle dest dk) = settle dest dk r from rfl,
        settle, hd]
      cases ofCells r dk <;> rfl

/-- Cells that are cut or padded stand for the number in the width of the other kind. -/
theorem resize_under {r : List Cell} (v : Valuation) (hlength : list.length = sk.numBytes)
    (h : resize list sk dk = .ok r) : ∃ p, (cells list).under v sk = .bits p ∧
      (ofCells r dk).under v dk = .ofBits (numberOf sk p) dk := by
  obtain ⟨p, hp, -⟩ := under_cells v list sk
  have hlow : p.toNat % 256 ^ list.length = Cell.valueOf v list := by
    rw [hlength, toNat_ofBits hp, ← hlength, Nat.mod_eq_of_lt (Cell.valueOf_lt v list)]
  obtain ⟨-, hnumber⟩ := resize_agrees hlength hlow h
  refine ⟨p, hp, ?_⟩
  rw [under_ofCells]
  exact ofBits_congr (by rw [hnumber, BitVec.ofInt_natCast])

/-! ## Integers -/

theorem settle_int {r : List Cell} (hd : dest.category = .int) :
    settle dest dk r = .ok (ofCells r dk) := by
  unfold settle
  rw [hd]
  cases ofCells r dk <;> rfl

theorem cast_number (hs : source.category = .int ∨ source.category = .char)
    (hd : dest.category = .int) (hsk : source.kind = .ok sk) (hdk : dest.kind = .ok dk)
    (hlength : list.length = sk.numBytes) (hextends : ¬ Extends sk dk) :
    ∃ r, cast (.cells list) source dest s = .ok r s ∧ ∀ v s0,
      cast ((cells list).under v sk) source dest s0 = .ok (r.under v dk) s0 := by
  obtain ⟨r, hr⟩ := resize_eq_ok list hextends
  refine ⟨ofCells r dk, ?_, fun v s0 => ?_⟩
  · have hsettled : (resize list sk dk >>= settle dest dk) = .ok (ofCells r dk) := by
      rw [hr]
      exact settle_int hd
    refine (symbolic_eq list hs (.inl hd) hsk hdk s).trans ?_
    rw [hsettled]
    rfl
  · obtain ⟨p, hp, hvalue⟩ := resize_under v hlength hr
    rw [hp, hvalue]
    change (liftM (known p source dest) : Run Store Scalar) s0 = _
    rw [known_int (by tauto) hd hsk hdk]
    rfl

theorem cast_truth (hs : source.category = .bool) (hd : dest.category = .int)
    (hdk : dest.kind = .ok dk) (hfits : (cells list).Fits s .bool) :
    ∃ r s', cast (.cells list) source dest s = .ok r s' ∧
      ∀ v, s'.Satisfied v → Cell.valueOf v list ≤ 1 → ∀ s0,
        cast ((cells list).under v .bool) source dest s0 = .ok (r.under v dk) s0 := by
  have hsk : source.kind = .ok .bool := by
    cases source <;> cases hs
    rfl
  have hconstant (n : Int) : (ofBits n dk).Fits s dk := .bits _
  obtain ⟨r, s', hselect, hunder⟩ := Store.select_under hfits (hconstant 1) (hconstant 0)
  refine ⟨r, s', ?_, fun v hv hle s0 => ?_⟩
  · change symbolic list source dest s = _
    unfold symbolic
    simp only [hs, hd, hdk]
    exact bind_eq_ok.2 ⟨dk, s, rfl, hselect⟩
  · obtain ⟨c, p, q, hc, hp, hq, hr⟩ := hunder v hv
    have hlow := setWidth_of_under hc
    have hknown : cast (.bits c) source dest s0 = .ok (.ofBits (Cell.valueOf v list) dk) s0 := by
      have hnumber : numberOf .bool c = Cell.valueOf v list := by
        have hbits : bool.bits = 8 := rfl
        rw [Operator.numberOf_eq_number, hlow, number, if_neg (by simp [isSigned]),
          BitVec.toNat_ofNat, hbits, Nat.mod_eq_of_lt (by omega)]
      change (liftM (known c source dest) : Run Store Scalar) s0 = _
      rw [known_int (.inr (.inr hs)) hd hsk hdk, hnumber]
      rfl
    rw [hc, hknown, hr, hlow]
    obtain hzero | hone : Cell.valueOf v list = 0 ∨ Cell.valueOf v list = 1 := by omega
    · rw [hzero, if_pos rfl, setWidth_of_ofBits hq, ← ofBits_toNat rfl]
      rfl
    · rw [hone, if_neg (by decide), setWidth_of_ofBits hp, ← ofBits_toNat rfl]
      rfl

/-- A cast of symbolic cells to an integer type is refused if a signed number would have to be widened.
Any other cast gives what the cast of the value gives, under all values that agree with the
definitions, where a truth value is zero or one. -/
theorem cast_int_agrees
    (hs : source.category = .int ∨ source.category = .char ∨ source.category = .bool)
    (hd : dest.category = .int) (hsk : source.kind = .ok sk) (hdk : dest.kind = .ok dk)
    (hfits : (Scalar.cells list).Fits s sk) :
    (Extends sk dk → cast (.cells list) source dest s = .error (.error .signExtension) s) ∧
    (¬ Extends sk dk → ∃ r s', cast (.cells list) source dest s = .ok r s' ∧
      ∀ v, (∀ d ∈ s'.definitions, d.satisfied v) →
        (source.category = .bool → Cell.valueOf v list ≤ 1) → ∀ s0,
        cast ((Scalar.cells list).under v sk) source dest s0 = .ok (r.under v dk) s0) := by
  obtain hnumber | hbool : (source.category = .int ∨ source.category = .char) ∨
      source.category = .bool := by tauto
  · constructor
    · intro hextends
      refine (symbolic_eq list hnumber (.inl hd) hsk hdk s).trans ?_
      rw [resize_of_extends hextends]
      rfl
    · intro hextends
      obtain ⟨r, hcast, hagrees⟩ := cast_number hnumber hd hsk hdk hfits.length_eq hextends
      exact ⟨r, s, hcast, fun v _ _ s0 => hagrees v s0⟩
  · obtain rfl : sk = .bool := by
      cases source <;> cases hbool
      cases hsk
      rfl
    constructor
    · rintro ⟨⟨⟩, -⟩
    · intro _
      obtain ⟨r, s', hcast, hagrees⟩ := cast_truth hbool hd hdk hfits
      exact ⟨r, s', hcast, fun v hv hle => hagrees v hv (hle hbool)⟩

/-- A word whose high byte is known is widened; a signed one is refused. -/
theorem cast_int_agrees_sample :
    let s : Store := { segments := [.input 1] }
    let list : List Cell := [.symbol 0, .known 7]
    let a : Scalar := .cells list
    a.Fits s (.int .w16 false) ∧ a.Fits s (.int .w16 true) ∧
    (∃ r s', cast a (.int .w16 false false) (.int .w64 true false) s = .ok r s' ∧
      ∀ v, (∀ d ∈ s'.definitions, d.satisfied v) → ∀ s0,
        cast (a.under v (.int .w16 false)) (.int .w16 false false) (.int .w64 true false) s0
          = .ok (r.under v (.int .w64 true)) s0) ∧
    cast a (.int .w16 true false) (.int .w64 true false) s = .error (.error .signExtension) s := by
  intro s list a
  have hunsigned : a.Fits s (.int .w16 false) := .cells rfl (by decide)
  have hsigned : a.Fits s (.int .w16 true) := .cells rfl (by decide)
  have hsource : (Ty.int .w16 false false).kind = .ok (.int .w16 false) := rfl
  have hdest : (Ty.int .w64 true false).kind = .ok (.int .w64 true) := rfl
  refine ⟨hunsigned, hsigned, ?_, ?_⟩
  · obtain ⟨r, s', hcast, hagrees⟩ :=
      (cast_int_agrees (.inl rfl) rfl hsource hdest hunsigned).2 nofun
    exact ⟨r, s', hcast, fun v hv => hagrees v hv nofun⟩
  · exact (cast_int_agrees (.inl rfl) rfl rfl hdest hsigned).1 ⟨rfl, by decide⟩

/-! ## Characters -/

theorem number_char (n : Int) : char.number (BitVec.ofInt char.bits n) = n % 2 ^ 32 := by
  have hbits : char.bits = 32 := rfl
  rw [number, if_neg (by simp [isSigned]), BitVec.toNat_ofInt, hbits]
  omega

theorem mod_of_ofBits_char {x y : Int} (h : ofBits x .char = .ofBits y .char) :
    x % 2 ^ 32 = y % 2 ^ 32 := by
  have hnumber := congrArg (toNumber · .char) h
  simp only [Operator.toNumber_ofBits, number_char] at hnumber
  exact Except.ok.inj hnumber

/-- What may become of a value that is cast to a character. It is refused if it is no character
whatever the symbolic bytes are. Otherwise its low bits are kept, and they are a character if they are
known or come from one byte. -/
def Checked (a : Scalar) (kind : Kind) : Except EvalError Scalar → Prop
  | .error e => (∃ k, e = .invalidChar k) ∧
    ∀ v, ∃ x, (a.under v kind).toNumber kind = .ok x ∧ ¬ (0 ≤ x ∧ x ≤ 0xff)
  | .ok r => ∀ v, ∃ x, (a.under v kind).toNumber kind = .ok x ∧ r.under v .char = .ofBits x .char ∧
    (r.isSymbolic = false ∨ kind.numBytes = 1 → x % 2 ^ 32 ≤ 0xff)

theorem checked_toChar {a : Scalar} {n : Int} (h : ∀ v, ∃ x, (a.under v sk).toNumber sk = .ok x ∧
    ofBits n .char = .ofBits x .char ∧ (0 ≤ x ∧ x ≤ 0xff → n = x)) :
    Checked a sk (toChar n) := by
  unfold toChar
  split
  · rename_i hrange
    intro v
    obtain ⟨x, hx, hlow, -⟩ := h v
    refine ⟨x, hx, ?_, fun _ => ?_⟩
    · rw [← hlow, ofBits_char hrange]
      rfl
    · rw [← mod_of_ofBits_char hlow]
      omega
  · rename_i hrange
    refine ⟨⟨_, rfl⟩, fun v => ?_⟩
    obtain ⟨x, hx, -, heq⟩ := h v
    exact ⟨x, hx, fun hx' => hrange (heq hx' ▸ hx')⟩

/-- A number of one byte that needs no extension of its sign is a character. -/
theorem numberOf_byte {p : BitVec 128} (hbyte : sk.numBytes = 1) (h : ¬ Extends sk .char) :
    0 ≤ numberOf sk p ∧ numberOf sk p ≤ 0xff := by
  have hbits : sk.bits = 8 := by rw [Kind.bits, hbyte]
  have hunsigned : ¬ sk.isSigned = true := fun hsigned => h ⟨hsigned, by rw [hbyte]; decide⟩
  have hlt := (p.setWidth sk.bits).isLt
  have hpow : 2 ^ sk.bits = 256 := congrArg (2 ^ ·) hbits
  rw [Operator.numberOf_eq_number, number, if_neg hunsigned]
  omega

theorem checked_settle {r : List Cell} (hlength : list.length = sk.numBytes)
    (h : resize list sk .char = .ok r) : Checked (.cells list) sk (settle .char .char r) := by
  unfold settle
  obtain ⟨q, hcells⟩ | hcells := ofCells_cases r .char
  · rw [hcells]
    refine checked_toChar fun v => ?_
    obtain ⟨p, hp, hvalue⟩ := resize_under v hlength h
    rw [hcells] at hvalue
    -- the bytes that are left are the same ones under all values of those that are cut
    have hnumber : numberOf .char q = numberOf sk p % 2 ^ 32 := by
      have hread := congrArg (toNumber · .char) hvalue
      simp only [Operator.toNumber_ofBits, number_char] at hread
      exact Except.ok.inj hread
    refine ⟨numberOf sk p, by rw [hp]; rfl, ?_, fun hrange => ?_⟩
    · rw [hnumber, ← number_char]
      exact ofBits_congr ofInt_number
    · rw [hnumber]
      omega
  · rw [hcells]
    intro v
    obtain ⟨p, hp, hvalue⟩ := resize_under v hlength h
    rw [hcells] at hvalue
    refine ⟨numberOf sk p, by rw [hp]; rfl, hvalue, ?_⟩
    rintro (⟨⟨⟩⟩ | hbyte)
    have hextends : ¬ Extends sk .char := fun hextends => by
      rw [resize_of_extends hextends] at h
      cases h
    have hrange := numberOf_byte (p := p) hbyte hextends
    omega

theorem cast_char_eq {a : Scalar} (hs : source.category = .int ∨ source.category = .char)
    (hsk : source.kind = .ok sk) (ha : a.Fits s sk) :
    (cast a source .char s = .error (.error .signExtension) s ∧ a.isSymbolic = true ∧
      Extends sk .char) ∨
    ∃ outcome, cast a source .char s = (liftM outcome : Run Store Scalar) s ∧
      Checked a sk outcome := by
  cases ha with
  | bits p =>
    refine .inr ⟨toChar (numberOf sk p), ?_, ?_⟩
    · change (liftM (known p source .char) : Run Store Scalar) s = _
      rw [known_char hs hsk]
    · exact checked_toChar fun v => ⟨_, rfl, rfl, fun _ => rfl⟩
  | @cells list hlength hscope =>
    have hchar : Ty.char.category = .int ∨ Ty.char.category = .char := .inr rfl
    have hsymbolic := symbolic_eq list hs hchar hsk rfl s
    by_cases hextends : Extends sk .char
    · refine .inl ⟨hsymbolic.trans ?_, rfl, hextends⟩
      rw [resize_of_extends hextends]
      rfl
    · obtain ⟨r, hr⟩ := resize_eq_ok list hextends
      rw [hr] at hsymbolic
      exact .inr ⟨_, hsymbolic, checked_settle hlength hr⟩

/-- A cast of a number to a character is refused, or keeps the low 32 bits of the number. What it gives
is a character if it is known or if the number has one byte; other symbolic bytes are not checked. A
cast is refused where a signed symbolic number would have to be widened, or where the number is no
character under any values of the symbolic bytes. -/
theorem cast_char_checked {a : Scalar} (hs : source.category = .int ∨ source.category = .char)
    (hsk : source.kind = .ok sk) (ha : a.Fits s sk) :
    (∃ e, cast a source .char s = .error (.error e) s ∧
      ((e = .signExtension ∧ a.isSymbolic = true ∧ Extends sk .char) ∨
        (∃ k, e = .invalidChar k) ∧
          ∀ v, ∃ x, (a.under v sk).toNumber sk = .ok x ∧ ¬ (0 ≤ x ∧ x ≤ 0xff))) ∨
    (∃ r, cast a source .char s = .ok r s ∧ ∀ v, ∃ x n, (a.under v sk).toNumber sk = .ok x ∧
      (r.under v .char).toNumber .char = .ok n ∧ n = x % 2 ^ 32 ∧
      (r.isSymbolic = false ∨ sk.numBytes = 1 → 0 ≤ n ∧ n ≤ 0xff)) := by
  obtain ⟨hcast, hextends⟩ | ⟨outcome, hcast, hchecked⟩ := cast_char_eq hs hsk ha
  · exact .inl ⟨_, hcast, .inl ⟨rfl, hextends⟩⟩
  · cases outcome with
    | error e => exact .inl ⟨e, hcast, .inr hchecked⟩
    | ok r =>
      refine .inr ⟨r, hcast, fun v => ?_⟩
      obtain ⟨x, hx, hr, hrange⟩ := hchecked v
      refine ⟨x, x % 2 ^ 32, hx, ?_, rfl, fun h => ⟨by omega, hrange h⟩⟩
      rw [hr, Operator.toNumber_ofBits, number_char]

/-- A symbolic byte becomes a character in range; four of them keep their number. -/
theorem cast_char_checked_sample :
    let s : Store := { segments := [.input 4] }
    let u8 : Kind := .int .w8 false
    let u32 : Kind := .int .w32 false
    let byte : Scalar := .cells [.symbol 0]
    let padded : Scalar := .cells [.symbol 0, .known 0, .known 0, .known 0]
    let word : Scalar := .cells [.symbol 0, .symbol 1, .symbol 2, .symbol 3]
    byte.Fits s u8 ∧ word.Fits s u32 ∧
    (cast byte (.int .w8 false false) .char s = .ok padded s ∧
      ∀ v, ∃ n, (padded.under v .char).toNumber .char = .ok n ∧ 0 ≤ n ∧ n ≤ 0xff) ∧
    (cast word (.int .w32 false false) .char s = .ok word s ∧
      ∀ v, ∃ x, (word.under v u32).toNumber u32 = .ok x ∧
        (word.under v .char).toNumber .char = .ok (x % 2 ^ 32)) := by
  intro s u8 u32 byte padded word
  have hbyte : byte.Fits s u8 := .cells rfl (by decide)
  have hword : word.Fits s u32 := .cells rfl (by decide)
  have hpadded : cast byte (.int .w8 false false) .char s = .ok padded s := rfl
  have hsame : cast word (.int .w32 false false) .char s = .ok word s := rfl
  have hu8 : (Ty.int .w8 false false).kind = .ok u8 := rfl
  have hu32 : (Ty.int .w32 false false).kind = .ok u32 := rfl
  refine ⟨hbyte, hword, ⟨hpadded, fun v => ?_⟩, hsame, fun v => ?_⟩
  · obtain ⟨e, hrefused, -⟩ | ⟨r, hgives, hr⟩ := cast_char_checked (.inl rfl) hu8 hbyte
    · cases hpadded.symm.trans hrefused
    · cases hpadded.symm.trans hgives
      obtain ⟨x, n, -, hn, -, hrange⟩ := hr v
      exact ⟨n, hn, hrange (.inr rfl)⟩
  · obtain ⟨e, hrefused, -⟩ | ⟨r, hgives, hr⟩ := cast_char_checked (.inl rfl) hu32 hword
    · cases hsame.symm.trans hrefused
    · cases hsame.symm.trans hgives
      obtain ⟨x, n, hx, hn, rfl, -⟩ := hr v
      exact ⟨x, hx, hn⟩

/-- A symbolic number of four bytes becomes a character unchecked: it may be 256. -/
theorem symbolic_char_unchecked :
    ¬ ∀ (source : Ty) (kind : Kind) (a r : Scalar) (s s' : Store),
      source.category = .int ∨ source.category = .char → source.kind = .ok kind → a.Fits s kind →
      cast a source .char s = .ok r s' → ∀ v, (∀ d ∈ s'.definitions, d.satisfied v) →
      ∃ n, (r.under v .char).toNumber .char = .ok n ∧ 0 ≤ n ∧ n ≤ 0xff := by
  intro hclaim
  let s : Store := { segments := [.input 4] }
  let a : Scalar := .cells [.symbol 0, .symbol 1, .symbol 2, .symbol 3]
  have hfits : a.Fits s (.int .w32 false) := .cells rfl (by decide)
  have hcast : cast a (.int .w32 false false) .char s = .ok a s := rfl
  let v : Valuation := fun i => if i = 1 then 1 else 0
  have hdefinitions : ∀ d ∈ s.definitions, d.satisfied v := nofun
  obtain ⟨n, hn, -, hle⟩ := hclaim _ _ a a s s (.inl rfl) rfl hfits hcast v hdefinitions
  have hvalue : (a.under v .char).toNumber .char = .ok 256 := rfl
  cases hvalue.symm.trans hn
  omega

end Cast
end SymExec

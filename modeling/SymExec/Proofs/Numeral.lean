import SymExec.Text.Numeral
import Mathlib.Data.List.TakeWhile

/-!
# Blanks and numerals

Dropping the blanks around a text that has none at its ends leaves it alone (`strip_blanks_append`). An
integer that is short enough to be written reads back from its decimal form (`integer_toString`).
-/
namespace SymExec.Text

variable {n : Int} {c d : Char}

attribute [local instance(2000)] instPowNat

structure Trimmed (blank : Char → Bool) (cs : List Char) : Prop where
  head : ∀ c, cs.head? = some c → blank c = false
  last : ∀ c, cs.getLast? = some c → blank c = false

variable {blank : Char → Bool} {cs : List Char}

theorem Trimmed.of_forall (h : ∀ c ∈ cs, blank c = false) : Trimmed blank cs where
  head c hc := h c (List.mem_of_mem_head? hc)
  last c hc := h c (List.mem_of_getLast? hc)

theorem Trimmed.of_ends (hhead : cs.head? = some c) (hlast : cs.getLast? = some d)
    (hc : blank c = false) (hd : blank d = false) : Trimmed blank cs where
  head e he := by rwa [← Option.some.inj (hhead.symm.trans he)]
  last e he := by rwa [← Option.some.inj (hlast.symm.trans he)]

theorem dropWhile_of_head (h : ∀ c, cs.head? = some c → blank c = false) :
    cs.dropWhile blank = cs := by
  cases cs with
  | nil => rfl
  | cons c cs => rw [List.dropWhile_cons_of_neg (by simp [h c rfl])]

/-- Blanks ahead of a trimmed text are dropped, and nothing else. -/
theorem strip_blanks_append {before : List Char} (hbefore : ∀ c ∈ before, blank c = true)
    (h : Trimmed blank cs) : strip blank (before ++ cs) = cs := by
  have hhead : (before ++ cs).dropWhile blank = cs := by
    rw [List.dropWhile_append_of_pos hbefore, dropWhile_of_head h.head]
  have hlast : cs.reverse.dropWhile blank = cs.reverse :=
    dropWhile_of_head fun c hc => h.last c (by rwa [List.head?_reverse] at hc)
  rw [strip, hhead, hlast, List.reverse_reverse]

theorem strip_eq_self (h : Trimmed blank cs) : strip blank cs = cs := by
  have hnone : ∀ c ∈ ([] : List Char), blank c = true := by simp
  exact strip_blanks_append hnone h

/-! ## Digits -/

theorem toNat_of_isDigit (h : c.isDigit) : 48 ≤ c.toNat ∧ c.toNat ≤ 57 := by
  rw [Char.isDigit, Bool.and_eq_true, decide_eq_true_iff, decide_eq_true_iff] at h
  exact h

theorem asciiDigit_of_isDigit (h : c.isDigit) : asciiDigit c = c := by
  have hrange := toNat_of_isDigit h
  rw [asciiDigit, digit?, if_pos (by omega), if_pos hrange]
  simp only
  rw [show 48 + (c.toNat - 48) = c.toNat by omega, Char.ofNat_toNat]

theorem isNumeralBlank_of_isDigit (h : c.isDigit) : isNumeralBlank c = false := by
  have hrange := toNat_of_isDigit h
  simp [isNumeralBlank, isAsciiBlank]
  omega

theorem ne_of_isDigit (h : c.isDigit) (hd : d.isDigit = false) : c ≠ d := by
  rintro rfl
  rw [h] at hd
  cases hd

theorem takeSign_digits (hdigits : ∀ c ∈ cs, c.isDigit = true) : takeSign cs = (false, cs) := by
  cases cs with
  | nil => rfl
  | cons c cs =>
    have hc := hdigits c (by simp)
    unfold takeSign
    split
    · exact absurd hc (by simp_all)
    · exact absurd hc (by simp_all)
    · rfl

theorem underscoresFit_digits {before : Char} (hbefore : before ≠ '_')
    (hdigits : ∀ c ∈ cs, c.isDigit = true) : underscoresFit before cs := by
  induction cs generalizing before with
  | nil => simpa [underscoresFit] using hbefore
  | cons c cs ih =>
    have hc := ne_of_isDigit (d := '_') (hdigits c (by simp)) rfl
    simp [underscoresFit, hc, hbefore, ih hc fun d hd => hdigits d (by simp [hd])]

theorem digitsValue_digits (hdigits : ∀ c ∈ cs, c.isDigit = true) :
    digitsValue cs = Nat.ofDigitChars 10 cs 0 := by
  unfold digitsValue Nat.ofDigitChars
  generalize 0 = n
  induction cs generalizing n with
  | nil => rfl
  | cons c cs ih =>
    have hc := ne_of_isDigit (d := '_') (hdigits c (by simp)) rfl
    rw [List.foldl_cons, List.foldl_cons, if_neg (by simpa using hc)]
    exact ih (fun d hd => hdigits d (by simp [hd])) _

/-! ## Integers -/

/-- Digits with a sign that is taken off, few enough to be read. -/
theorem decimalInteger_digits {signed : List Char} {negative : Bool} (shown : String)
    (hsign : takeSign signed = (negative, cs)) (hdigits : ∀ c ∈ cs, c.isDigit = true) (hne : cs ≠ [])
    (hlength : cs.length ≤ maxDigits) :
    decimalInteger signed shown
      = .ok (if negative then -(Nat.ofDigitChars 10 cs 0 : Int) else Nat.ofDigitChars 10 cs 0) := by
  have hrun : (cs.takeWhile fun c => c.isDigit || c == '_') = cs := by
    have hall : ∀ c ∈ cs, (c.isDigit || c == '_') = true := fun c hc => by simp [hdigits c hc]
    exact List.takeWhile_eq_self_iff.2 hall
  have hfilter : (cs.filter (· != '_')) = cs := by
    rw [List.filter_eq_self]
    intro c hc
    simpa using ne_of_isDigit (d := '_') (hdigits c hc) rfl
  unfold decimalInteger
  rw [hsign]
  simp only [hrun, hfilter]
  rw [if_neg, if_neg (by omega), if_neg (by simp), digitsValue_digits hdigits]
  have hfit := underscoresFit_digits (by decide : ' ' ≠ '_') hdigits
  simp [hne, hfit]

theorem isDigit_of_mem_toDigits {n : Nat} (h : c ∈ Nat.toDigits 10 n) : c.isDigit :=
  Nat.isDigit_of_mem_toDigits (by decide) (by decide) h

/-- The characters of an integer in decimal. -/
theorem toList_toString (n : Int) : (toString n).toList
    = if 0 ≤ n then Nat.toDigits 10 n.natAbs else '-' :: Nat.toDigits 10 n.natAbs := by
  rw [Int.toString_eq_repr, Int.repr_eq_if]
  split
  · rw [Nat.toList_repr, show n.toNat = n.natAbs by omega]
  · rw [String.toList_append, Nat.toList_repr, show (-n).toNat = n.natAbs by omega]
    rfl

theorem mem_toString (h : c ∈ (toString n).toList) : c = '-' ∨ c.isDigit = true := by
  rw [toList_toString] at h
  split at h
  · exact .inr (isDigit_of_mem_toDigits h)
  · rcases List.mem_cons.1 h with h | h
    · exact .inl h
    · exact .inr (isDigit_of_mem_toDigits h)

/-- An integer that is short enough to be written reads back. -/
theorem integer_toString (h : isPrintableInt n) : integer (toString n) = .ok n := by
  have hlength : (Nat.toDigits 10 n.natAbs).length ≤ maxDigits := by
    rw [Nat.length_toDigits_le_iff (by decide) (by decide)]
    simpa [isPrintableInt] using h
  have hstrip : strip isNumeralBlank (toString n).toList = (toString n).toList := by
    refine strip_eq_self (.of_forall fun c hc => ?_)
    rcases mem_toString hc with rfl | hdigit
    · rfl
    · exact isNumeralBlank_of_isDigit hdigit
  have hascii : (toString n).toList.map asciiDigit = (toString n).toList := by
    refine (List.map_congr_left fun c hc => ?_).trans (List.map_id _)
    rcases mem_toString hc with rfl | hdigit
    · rfl
    · exact asciiDigit_of_isDigit hdigit
  have hvalue : Nat.ofDigitChars 10 (Nat.toDigits 10 n.natAbs) 0 = n.natAbs :=
    Nat.ofDigitChars_toDigits (by decide) (by decide)
  rw [integer, hstrip, hascii, toList_toString]
  split
  · rw [decimalInteger_digits _ (takeSign_digits fun _ => isDigit_of_mem_toDigits)
      (fun _ => isDigit_of_mem_toDigits) Nat.toDigits_ne_nil hlength, hvalue]
    simp only [Bool.false_eq_true, if_false, Except.ok.injEq]
    omega
  · have hsign : takeSign ('-' :: Nat.toDigits 10 n.natAbs) = (true, Nat.toDigits 10 n.natAbs) := rfl
    rw [decimalInteger_digits _ hsign (fun _ => isDigit_of_mem_toDigits) Nat.toDigits_ne_nil hlength,
      hvalue]
    simp only [if_true, Except.ok.injEq]
    omega

end SymExec.Text

import SymExec.Proofs.Numeral
import SymExec.Ty.Reader

/-!
# Names of types

`Ty.read` takes the name of a type back to the type (`Ty.read_name`), so different types have different
names. The reader cuts a text at the commas and semicolons that stand outside of brackets. Brackets match
in every name, and these separators stand inside of them (`Spelling`), so the parts that the reader finds
are the names that were put together.
-/
namespace SymExec.Ty

open Text List

variable {t : Ty} {s : String} {ts : List Ty} {inner : List Char}

/-! ## Brackets -/

/-- Whether brackets match from `depth` open ones on, and separators stand inside of brackets only. -/
def isEnclosed : (depth : Nat) → List Char → Bool
  | depth, [] => depth == 0
  | depth, c :: cs =>
    if c == '(' || c == '[' then isEnclosed (depth + 1) cs
    else if c == ')' || c == ']' then depth != 0 && isEnclosed (depth - 1) cs
    else (depth != 0 || (c != ',' && c != ';')) && isEnclosed depth cs

variable {xs ys : List Char} {depth : Nat}

/-- Past a text that closes its brackets, and `depth` ones that were open, the others are still open. -/
theorem isEnclosed_append (h : isEnclosed depth xs) (others : Nat) :
    isEnclosed (depth + others) (xs ++ ys) = isEnclosed others ys := by
  induction xs generalizing depth with
  | nil =>
    obtain rfl : depth = 0 := by simpa [isEnclosed] using h
    simp
  | cons c xs ih =>
    rw [isEnclosed] at h
    rw [cons_append, isEnclosed]
    split at h
    case isTrue hopen =>
      rw [if_pos hopen, ← ih h]
      congr 1
      omega
    case isFalse hopen =>
      rw [if_neg hopen]
      split at h
      case isTrue hclose =>
        rw [Bool.and_eq_true, bne_iff_ne] at h
        rw [if_pos hclose, ← ih h.2, show depth + others - 1 = depth - 1 + others by omega]
        simp only [Bool.and_eq_right_iff_imp, bne_iff_ne]
        omega
      case isFalse hclose =>
        rw [Bool.and_eq_true] at h
        rw [if_neg hclose, ih h.2]
        grind

/-- The reader cuts nowhere in a text that encloses its separators. -/
theorem splitTop_append {separator : Char} (hseparator : separator = ',' ∨ separator = ';')
    (h : isEnclosed depth xs) (part : List Char) :
    splitTop separator (xs ++ ys) depth part = splitTop separator ys 0 (xs.reverse ++ part) := by
  induction xs generalizing depth part with
  | nil =>
    obtain rfl : depth = 0 := by simpa [isEnclosed] using h
    rfl
  | cons c xs ih =>
    rw [isEnclosed] at h
    rw [cons_append, splitTop, reverse_cons, append_assoc]
    split at h
    case isTrue hopen =>
      have hc : (c == separator) = false := by grind
      rw [if_pos hopen, hc, Bool.false_and, if_neg (by simp)]
      exact ih h (c :: part)
    case isFalse hopen =>
      rw [if_neg hopen]
      split at h
      case isTrue hclose =>
        have hc : (c == separator) = false := by grind
        rw [Bool.and_eq_true, bne_iff_ne] at h
        rw [if_pos hclose, hc, Bool.false_and, if_neg (by simp),
          show (depth : Int) - 1 = (depth - 1 : Nat) by omega]
        exact ih h.2 (c :: part)
      case isFalse hclose =>
        rw [Bool.and_eq_true] at h
        have hinside : ¬ (c == separator && (depth : Int) == 0) = true := by grind
        rw [if_neg hclose, if_neg hinside]
        exact ih h.2 (c :: part)

/-! ## Spellings -/

/-- What the names of types have in common. -/
structure Spelling (cs : List Char) : Prop where
  enclosed : isEnclosed 0 cs = true
  trimmed : Trimmed isBlank cs
  nonempty : cs ≠ []
  /-- So a reference to the type is not read as a mutable one. -/
  notMut : ¬ "mut ".toList <+: cs

namespace Spelling

variable {separator : Char} {part : List Char}

theorem splitTop_last (h : Spelling xs) (hseparator : separator = ',' ∨ separator = ';')
    (hpart : ∀ c ∈ part, isBlank c = true) : splitTop separator xs 0 part = [xs] := by
  have hsplit : splitTop separator (xs ++ []) 0 part = _ := splitTop_append hseparator h.enclosed part
  rw [append_nil] at hsplit
  refine hsplit.trans ?_
  rw [splitTop, reverse_append, reverse_reverse,
    strip_blanks_append (by simpa using hpart) h.trimmed]
  simpa using h.nonempty

theorem splitTop_cons (h : Spelling xs) (hseparator : separator = ',' ∨ separator = ';')
    (hpart : ∀ c ∈ part, isBlank c = true) (ys : List Char) :
    splitTop separator (xs ++ separator :: ys) 0 part = xs :: splitTop separator ys 0 [] := by
  refine (splitTop_append hseparator h.enclosed part).trans ?_
  have hplain : (separator == '(' || separator == '[') = false ∧
      (separator == ')' || separator == ']') = false := by
    rcases hseparator with rfl | rfl <;> decide
  rw [splitTop, hplain.1, hplain.2, reverse_append, reverse_reverse,
    strip_blanks_append (by simpa using hpart) h.trimmed]
  simp

end Spelling

/-- A text without blanks, brackets and separators that starts as no pointer type does. Identifiers are
of this form. -/
def IsWord (s : String) : Prop :=
  s.toList.head? ∉ [none, some '&', some '*'] ∧
    ∀ c ∈ s.toList, isBlank c = false ∧ c ∉ "()[],;".toList

-- the characters of the text are tried, not all there are
instance (s : String) : Decidable (IsWord s) :=
  have := decidableBAll (fun c => isBlank c = false ∧ c ∉ "()[],;".toList) s.toList
  inferInstanceAs (Decidable (_ ∧ _))

theorem isEnclosed_plain (h : ∀ c ∈ xs, c ∉ "()[],;".toList) : isEnclosed 0 xs := by
  induction xs with
  | nil => rfl
  | cons c xs ih =>
    have hc := h c (by simp)
    have hrest := ih fun d hd => h d (by simp [hd])
    simp at hc
    simp [isEnclosed, hc, hrest]

theorem IsWord.spelling (h : IsWord s) : Spelling s.toList where
  enclosed := isEnclosed_plain fun c hc => (h.2 c hc).2
  trimmed := .of_forall fun c hc => (h.2 c hc).1
  nonempty hnil := h.1 (by simp [hnil])
  notMut hmut := by
    have hblank := (h.2 ' ' (hmut.subset (by decide))).1
    revert hblank
    decide

/-- An integer is spelled without brackets and separators. -/
theorem spelling_toString (n : Int) : Spelling (toString n).toList where
  enclosed := by
    refine isEnclosed_plain fun c hc => ?_
    rcases mem_toString hc with rfl | hdigit
    · decide
    · intro hmem
      simp at hmem
      rcases hmem with rfl | rfl | rfl | rfl | rfl | rfl <;> cases hdigit
  trimmed := by
    refine .of_forall fun c hc => ?_
    rcases mem_toString hc with rfl | hdigit
    · decide
    · have := toNat_of_isDigit hdigit
      simp [isBlank]
      omega
  nonempty := by
    rw [toList_toString]
    split <;> simp [Nat.toDigits_ne_nil]
  notMut hmut := by
    have := mem_toString (hmut.subset (by decide : 'm' ∈ "mut ".toList))
    revert this
    decide

/-! ## Types that names stand for -/

/-- The types that have a name of their own: primitive types, declared structs, and what is built from
these. A function pointer is named by its signature. The length of an array has to be short enough to be
written. -/
inductive Nameable (structs : Structs) : Ty → Prop where
  | primitive {s : String} {t : Ty} (h : (s, t) ∈ primitives) : Nameable structs t
  | ref {t : Ty} (mutable : Bool) (h : Nameable structs t) : Nameable structs (ref t mutable)
  | rawPtr {t : Ty} (mutable : Bool) (h : Nameable structs t) : Nameable structs (rawPtr t mutable)
  | slice {t : Ty} (h : Nameable structs t) : Nameable structs (slice t)
  | array {t : Ty} {length : Int} (h : Nameable structs t) (hlength : isPrintableInt length) :
    Nameable structs (array t length)
  | tuple {fields : List Ty} (h : ∀ t ∈ fields, Nameable structs t) : Nameable structs (tuple fields)
  | fnPtr {signature : String} (hstart : "fn(".toList <+: signature.toList)
    (henclosed : isEnclosed 0 signature.toList) (htrimmed : Trimmed isBlank signature.toList) :
    Nameable structs (fnPtr signature)
  | struct {name : String} {fields : List Ty} {dropGlue : Bool} (hword : IsWord name)
    (hnew : name ∉ primitives.map Prod.fst)
    (hdeclared : structs.lookup name = some (struct (.str name) fields dropGlue)) :
    Nameable structs (struct (.str name) fields dropGlue)

theorem text_primitive (h : (s, t) ∈ primitives) : t.text = s :=
  (by decide : ∀ x ∈ primitives, x.2.text = x.1) (s, t) h

theorem lookup_primitive (h : (s, t) ∈ primitives) : primitives.lookup s = some t := by
  have hall : ∀ x ∈ primitives, primitives.lookup x.1 = some x.2 := by
    simp [primitives, lookup_cons]
  exact hall (s, t) h

theorem spelling_primitive (h : s ∈ primitives.map Prod.fst) : Spelling s.toList where
  enclosed := (by decide : ∀ s ∈ primitives.map Prod.fst, isEnclosed 0 s.toList = true) s h
  trimmed := by
    have hall := (by decide : ∀ s ∈ primitives.map Prod.fst, s.toList.any isBlank = false) s h
    exact .of_forall (by simpa using hall)
  nonempty := (by decide : ∀ s ∈ primitives.map Prod.fst, s.toList ≠ []) s h
  notMut := (by decide : ∀ s ∈ primitives.map Prod.fst, ¬ "mut ".toList <+: s.toList) s h

/-! ## Names put together -/

theorem texts_cons_cons (t u : Ty) (ts : List Ty) :
    (texts (t :: u :: ts)).toList = t.text.toList ++ ',' :: ' ' :: (texts (u :: ts)).toList := by
  rw [texts]
  · simp
  · simp

theorem length_text_le (h : t ∈ ts) : t.text.toList.length ≤ (texts ts).toList.length := by
  induction ts with
  | nil => cases h
  | cons u ts ih =>
    cases ts with
    | nil =>
      obtain rfl := mem_singleton.1 h
      exact Nat.le_refl _
    | cons w ts =>
      rw [texts_cons_cons, length_append, length_cons, length_cons]
      rcases mem_cons.1 h with rfl | h
      · omega
      · have := ih h
        omega

/-- Inside of a bracket the names of the fields close theirs. -/
theorem isEnclosed_texts (h : ∀ t ∈ ts, Spelling t.text.toList) (ys : List Char) :
    isEnclosed 1 ((texts ts).toList ++ ys) = isEnclosed 1 ys := by
  induction ts with
  | nil => simp [texts]
  | cons t ts ih =>
    have ht := (h t (by simp)).enclosed
    cases ts with
    | nil =>
      rw [texts]
      exact isEnclosed_append ht 1
    | cons u ts =>
      rw [texts_cons_cons, append_assoc]
      refine (isEnclosed_append ht 1).trans ?_
      exact ih fun t' ht' => h t' (by simp [ht'])

theorem isBlank_of_mem : ∀ c ∈ [' '], isBlank c = true := by
  simp only [mem_singleton, forall_eq]
  decide

/-- The reader finds the names of the fields, with or without a comma behind the last one. -/
theorem splitTop_texts (hne : ts ≠ []) (h : ∀ t ∈ ts, Spelling t.text.toList) {part : List Char}
    (hpart : ∀ c ∈ part, isBlank c = true) (hys : ys = [] ∨ ys = [',']) :
    splitTop ',' ((texts ts).toList ++ ys) 0 part = ts.map fun t => t.text.toList := by
  induction ts generalizing part with
  | nil => exact absurd rfl hne
  | cons t ts ih =>
    have ht := h t (by simp)
    cases ts with
    | nil =>
      rw [texts]
      rcases hys with rfl | rfl
      · rw [append_nil]
        exact ht.splitTop_last (.inl rfl) hpart
      · exact ht.splitTop_cons (.inl rfl) hpart []
    | cons u ts =>
      rw [texts_cons_cons, append_assoc]
      refine (ht.splitTop_cons (.inl rfl) hpart _).trans ?_
      rw [map_cons]
      congr 1
      exact ih (by simp) (fun t' ht' => h t' (by simp [ht'])) isBlank_of_mem

theorem notMut_of_head {c : Char} (h : xs.head? = some c) (hc : c ≠ 'm') : ¬ "mut ".toList <+: xs := by
  rintro ⟨rest, rfl⟩
  exact hc (Option.some.inj h).symm

theorem spelling_bracketed {c d : Char} (hbrackets : (c, d) ∈ [('(', ')'), ('[', ']')])
    (h : ∀ ys, isEnclosed 1 (inner ++ ys) = isEnclosed 1 ys) : Spelling (c :: inner ++ [d]) := by
  have hends : (c == '(' || c == '[') = true ∧ isEnclosed 1 [d] = true ∧ isBlank c = false ∧
      isBlank d = false ∧ c ≠ 'm' :=
    (by decide : ∀ x ∈ [('(', ')'), ('[', ']')], (x.1 == '(' || x.1 == '[') = true ∧
      isEnclosed 1 [x.2] = true ∧ isBlank x.1 = false ∧ isBlank x.2 = false ∧ x.1 ≠ 'm') (c, d) hbrackets
  obtain ⟨hopen, hclose, hc, hd, hm⟩ := hends
  refine ⟨?_, .of_ends rfl getLast?_concat hc hd, by simp, notMut_of_head rfl hm⟩
  rw [cons_append, isEnclosed, if_pos hopen]
  exact (h [d]).trans hclose

/-- The signs ahead of what a pointer points to. -/
def pointerSigns : List String := ["&mut ", "&", "*mut ", "*const "]

theorem spelling_pointer {sign : String} {cs : List Char} (hsign : sign ∈ pointerSigns)
    (h : Spelling cs) : Spelling (sign.toList ++ cs) := by
  have henclosed := (by decide : ∀ s ∈ pointerSigns, isEnclosed 0 s.toList = true) sign hsign
  have hsigns := (by decide : ∀ s ∈ pointerSigns,
    s.toList.head? = some '&' ∨ s.toList.head? = some '*') sign hsign
  obtain ⟨c, hhead, hblank, hm⟩ : ∃ c, sign.toList.head? = some c ∧ isBlank c = false ∧ c ≠ 'm' := by
    rcases hsigns with hhead | hhead
    · exact ⟨'&', hhead, rfl, by decide⟩
    · exact ⟨'*', hhead, rfl, by decide⟩
  have hstart : (sign.toList ++ cs).head? = some c := by
    rw [head?_append, hhead]
    rfl
  have henclosed' := (isEnclosed_append henclosed 0).trans h.enclosed
  refine ⟨henclosed', ?_, by simp [h.nonempty], notMut_of_head hstart hm⟩
  cases hlast : cs.getLast? with
  | none => exact absurd (getLast?_eq_none_iff.1 hlast) h.nonempty
  | some d =>
    refine .of_ends hstart ?_ hblank (h.trimmed.last d hlast)
    rw [getLast?_append, hlast]
    rfl

theorem text_tuple (fields : List Ty) : (tuple fields).text.toList
    = '(' :: ((texts fields).toList ++ if fields.length = 1 then [','] else []) ++ [')'] := by
  rw [text]
  split <;> simp

theorem text_slice (t : Ty) : (slice t).text.toList = '[' :: t.text.toList ++ [']'] := by
  simp [text]

theorem text_array (t : Ty) (length : Int) : (array t length).text.toList
    = '[' :: (t.text.toList ++ ';' :: ' ' :: (toString length).toList) ++ [']'] := by
  simp [text]

theorem Nameable.spelling {structs : Structs} (h : Nameable structs t) : Spelling t.text.toList := by
  induction h with
  | @primitive s t h =>
    rw [text_primitive h]
    exact spelling_primitive (mem_map_of_mem h)
  | ref mutable h ih | rawPtr mutable h ih =>
    rw [text, String.toList_append]
    exact spelling_pointer (by cases mutable <;> decide) ih
  | slice h ih =>
    rw [text_slice]
    exact spelling_bracketed (by decide) fun ys => isEnclosed_append ih.enclosed 1
  | @array t length h hlength ih =>
    rw [text_array]
    refine spelling_bracketed (by decide) fun ys => ?_
    rw [append_assoc]
    refine (isEnclosed_append ih.enclosed 1).trans ?_
    exact isEnclosed_append (spelling_toString length).enclosed 1
  | @tuple fields h ih =>
    rw [text_tuple]
    refine spelling_bracketed (by decide) fun ys => ?_
    rw [append_assoc]
    refine (isEnclosed_texts ih _).trans ?_
    split <;> rfl
  | @fnPtr signature hstart henclosed htrimmed =>
    obtain ⟨rest, hrest⟩ := hstart
    have hhead : (Ty.fnPtr signature).text.toList.head? = some 'f' := by
      rw [text, ← hrest]
      rfl
    exact ⟨henclosed, htrimmed, fun hnil => by simp [hnil] at hhead, notMut_of_head hhead (by decide)⟩
  | struct hword hnew hdeclared => exact hword.spelling

/-! ## Reading -/

section Reading

variable {structs : Structs} {cs : List Char} {fuel : Nat}
variable {c : Char} {start : String}

theorem lookup_primitives_eq_none (h : ∀ s ∈ primitives.map Prod.fst, s.toList ≠ cs) :
    primitives.lookup (String.ofList cs) = none := by
  rw [lookup_eq_none_iff]
  intro x hx
  rw [bne_iff_ne]
  intro heq
  exact h x.1 (mem_map_of_mem hx) (by rw [← heq, String.toList_ofList])

/-- No primitive type starts as a pointer, a function pointer or a list of types does. -/
theorem lookup_primitives_of_prefix {start : String}
    (hstart : start ∈ ["&", "*", "fn(", "["]) (h : start.toList <+: cs) :
    primitives.lookup (String.ofList cs) = none := by
  refine lookup_primitives_eq_none fun s hs heq => ?_
  exact (by decide : ∀ start ∈ ["&", "*", "fn(", "["], ∀ s ∈ primitives.map Prod.fst,
    ¬ start.toList <+: s.toList) start hstart s hs (heq ▸ h)

theorem after?_append (start : String) (h : Trimmed isBlank cs) :
    after? start (start.toList ++ cs) = some cs := by
  have hprefix : start.toList.isPrefixOf (start.toList ++ cs) := by simp
  rw [after?, if_pos hprefix, ← String.length_toList, drop_left, strip_eq_self h]

theorem not_prefix_of_head (h : cs.head? = some c) (hc : start.toList.head? ∉ [none, some c]) :
    ¬ start.toList <+: cs := by
  rintro ⟨rest, rfl⟩
  cases hstart : start.toList with
  | nil => simp [hstart] at hc
  | cons d ds =>
    rw [hstart] at h hc
    exact hc (by simp [Option.some.inj h])

theorem after?_eq_none (h : ¬ start.toList <+: cs) : after? start cs = none := by
  rw [after?, if_neg (by simpa using h)]

theorem after?_of_head (h : cs.head? = some c) (hc : start.toList.head? ∉ [none, some c]) :
    after? start cs = none :=
  after?_eq_none (not_prefix_of_head h hc)

theorem between?_of_head {opening closing : Char} (h : cs.head? = some c) (hc : c ≠ opening) :
    between? opening closing cs = none := by
  rw [between?, if_neg (by simp [h, hc])]

theorem between?_brackets (opening closing : Char) (inner : List Char) :
    between? opening closing (opening :: inner ++ [closing]) = some inner := by
  rw [between?, if_pos ⟨rfl, getLast?_concat⟩]
  simp

theorem readFrom_primitive (h : (s, t) ∈ primitives) :
    readFrom structs t.text.toList (fuel + 1) = .ok t := by
  simp [readFrom, text_primitive h, lookup_primitive h]

theorem readFrom_ref (h : Spelling cs) (mutable : Bool) :
    readFrom structs ((if mutable then "&mut " else "&").toList ++ cs) (fuel + 1)
      = (readFrom structs cs fuel).map (ref · mutable) := by
  cases mutable with
  | true =>
    have hstart : "&".toList <+: "&mut ".toList ++ cs := ⟨"mut ".toList ++ cs, rfl⟩
    have hprimitive := lookup_primitives_of_prefix (by decide) hstart
    simp only [if_true, readFrom, hprimitive, after?_append _ h.trimmed]
    cases readFrom structs cs fuel <;> rfl
  | false =>
    have hprimitive := lookup_primitives_of_prefix (by decide) (prefix_append "&".toList cs)
    have hmut : ¬ "&mut ".toList <+: "&".toList ++ cs := fun hmut =>
      h.notMut (cons_prefix_cons.1 hmut).2
    simp only [Bool.false_eq_true, if_false, readFrom, hprimitive, after?_eq_none hmut,
      after?_append _ h.trimmed]
    cases readFrom structs cs fuel <;> rfl

theorem after?_refSigns (h : cs.head? = some '*') : after? "&mut " cs = none ∧ after? "&" cs = none :=
  ⟨after?_of_head h (by decide), after?_of_head h (by decide)⟩

theorem readFrom_rawPtr (h : Spelling cs) (mutable : Bool) :
    readFrom structs ((if mutable then "*mut " else "*const ").toList ++ cs) (fuel + 1)
      = (readFrom structs cs fuel).map (rawPtr · mutable) := by
  cases mutable with
  | true =>
    have hhead : ("*mut ".toList ++ cs).head? = some '*' := rfl
    have hstart : "*".toList <+: "*mut ".toList ++ cs := ⟨"mut ".toList ++ cs, rfl⟩
    have hprimitive := lookup_primitives_of_prefix (by decide) hstart
    obtain ⟨hrefMut, href⟩ := after?_refSigns hhead
    have hconst : ¬ "*const ".toList <+: "*mut ".toList ++ cs := fun hconst => by
      have := (cons_prefix_cons.1 (cons_prefix_cons.1 hconst).2).1
      revert this
      decide
    simp only [if_true, readFrom, hprimitive, hrefMut, href, after?_eq_none hconst,
      after?_append _ h.trimmed]
    cases readFrom structs cs fuel <;> rfl
  | false =>
    have hhead : ("*const ".toList ++ cs).head? = some '*' := rfl
    have hstart : "*".toList <+: "*const ".toList ++ cs := ⟨"const ".toList ++ cs, rfl⟩
    have hprimitive := lookup_primitives_of_prefix (by decide) hstart
    obtain ⟨hrefMut, href⟩ := after?_refSigns hhead
    simp only [Bool.false_eq_true, if_false, readFrom, hprimitive, hrefMut, href,
      after?_append _ h.trimmed]
    cases readFrom structs cs fuel <;> rfl

/-- A text that starts otherwise is no pointer. -/
theorem after?_pointerSigns (hhead : cs.head? = some c) (hc : c ∉ ['&', '*']) :
    after? "&mut " cs = none ∧ after? "&" cs = none ∧ after? "*const " cs = none ∧
      after? "*mut " cs = none := by
  have hsign {start : String} (hstart : start.toList.head? = some '&' ∨ start.toList.head? = some '*') :
      after? start cs = none := by
    refine after?_of_head hhead fun hmem => hc ?_
    rcases hstart with hstart | hstart <;> simp_all [eq_comm]
  exact ⟨hsign (.inl rfl), hsign (.inl rfl), hsign (.inr rfl), hsign (.inr rfl)⟩

theorem readFrom_signature {signature : String} (h : "fn(".toList <+: signature.toList) :
    readFrom structs signature.toList (fuel + 1) = .ok (fnPtr signature) := by
  have hprimitive := lookup_primitives_of_prefix (by decide) h
  have hhead : signature.toList.head? = some 'f' := by
    obtain ⟨rest, hrest⟩ := h
    rw [← hrest]
    rfl
  obtain ⟨hrefMut, href, hconst, hmut⟩ := after?_pointerSigns hhead (by decide)
  have hfn : "fn(".toList.isPrefixOf signature.toList = true := by simpa using h
  rw [String.ofList_toList] at hprimitive
  simp only [readFrom, hprimitive, hrefMut, href, hconst, hmut, hfn, if_true, String.ofList_toList]

/-- Types in square brackets: what stands between the brackets decides. -/
theorem readFrom_square (inner : List Char) :
    (∀ elem, splitTop ';' inner 0 [] = [elem] →
      readFrom structs ('[' :: inner ++ [']']) (fuel + 1) = (readFrom structs elem fuel).map slice) ∧
    ∀ elem length n, splitTop ';' inner 0 [] = [elem, length] →
      integer (String.ofList length) = .ok n →
      readFrom structs ('[' :: inner ++ [']']) (fuel + 1) = (readFrom structs elem fuel).map (array · n) := by
  have hhead : ('[' :: inner ++ [']']).head? = some '[' := rfl
  have hstart : "[".toList <+: '[' :: inner ++ [']'] := ⟨inner ++ [']'], rfl⟩
  have hprimitive := lookup_primitives_of_prefix (by decide) hstart
  obtain ⟨hrefMut, href, hconst, hmut⟩ := after?_pointerSigns hhead (by decide)
  have hfn : "fn(".toList.isPrefixOf ('[' :: inner ++ [']']) = false := rfl
  have hread := readFrom.eq_2 structs ('[' :: inner ++ [']']) fuel
  simp only [hprimitive, hrefMut, href, hconst, hmut, hfn, between?_brackets, Bool.false_eq_true,
    if_false] at hread
  constructor
  · intro elem hsplit
    simp only [hsplit] at hread
    rw [hread]
    cases readFrom structs elem fuel <;> rfl
  · intro elem length n hsplit hn
    simp only [hsplit, hn] at hread
    rw [hread]
    cases readFrom structs elem fuel <;> rfl

/-- Types in round brackets, more than none. -/
theorem readFrom_round (hne : inner ≠ []) :
    readFrom structs ('(' :: inner ++ [')']) (fuel + 1)
      = ((splitTop ',' inner 0 []).mapM fun part => readFrom structs part fuel).map tuple := by
  have hhead : ('(' :: inner ++ [')']).head? = some '(' := rfl
  have hprimitive : primitives.lookup (String.ofList ('(' :: inner ++ [')'])) = none := by
    refine lookup_primitives_eq_none fun s hs heq => ?_
    have hlength := (by decide : ∀ s ∈ primitives.map Prod.fst,
      s.toList.head? = some '(' → s.toList.length = 2) s hs (by rw [heq]; rfl)
    rw [heq] at hlength
    simp at hlength
    exact hne hlength
  obtain ⟨hrefMut, href, hconst, hmut⟩ := after?_pointerSigns hhead (by decide)
  have hfn : "fn(".toList.isPrefixOf ('(' :: inner ++ [')']) = false := rfl
  have hsquare : between? '[' ']' ('(' :: inner ++ [')']) = none := between?_of_head hhead (by decide)
  simp only [readFrom, hprimitive, hrefMut, href, hconst, hmut, hfn, hsquare, between?_brackets,
    Bool.false_eq_true, if_false]
  cases (splitTop ',' inner 0 []).mapM fun part => readFrom structs part fuel <;> rfl

theorem readFrom_word (hword : IsWord s) (hnew : s ∉ primitives.map Prod.fst) :
    readFrom structs s.toList (fuel + 1) = named structs s := by
  have hprimitive : primitives.lookup (String.ofList s.toList) = none :=
    lookup_primitives_eq_none fun s' hs' heq => hnew (String.toList_inj.1 heq ▸ hs')
  rw [String.ofList_toList] at hprimitive
  cases hhead : s.toList.head? with
  | none => exact absurd (by simp [hhead]) hword.1
  | some c =>
    have hmem : c ∈ s.toList := mem_of_mem_head? hhead
    have hplain := (hword.2 c hmem).2
    have hc : c ∉ ['&', '*'] := by
      have := hword.1
      simpa [hhead] using this
    have hround : c ≠ '(' := by
      rintro rfl
      exact hplain (by decide)
    have hsquare : c ≠ '[' := by
      rintro rfl
      exact hplain (by decide)
    have hfn : "fn(".toList.isPrefixOf s.toList = false := by
      rw [Bool.eq_false_iff, Ne, isPrefixOf_iff_prefix]
      intro hfn
      exact (hword.2 '(' (hfn.subset (by decide))).2 (by decide)
    obtain ⟨hrefMut, href, hconst, hmut⟩ := after?_pointerSigns hhead hc
    simp only [readFrom, hprimitive, hrefMut, href, hconst, hmut, hfn, Bool.false_eq_true, if_false,
      between?_of_head hhead hround, between?_of_head hhead hsquare, String.ofList_toList]

theorem mapM_map_ok {α β ε : Type} {f : β → Except ε α} {g : α → β} {as : List α}
    (h : ∀ a ∈ as, f (g a) = .ok a) : (as.map g).mapM f = .ok as := by
  induction as with
  | nil => rfl
  | cons a as ih =>
    rw [map_cons, mapM_cons, h a (by simp), ih fun b hb => h b (by simp [hb])]
    rfl

/-- The length of a name bounds how deep it is read. -/
theorem Nameable.readFrom_text (h : Nameable structs t) :
    ∀ fuel, t.text.toList.length < fuel → readFrom structs t.text.toList fuel = .ok t := by
  induction h with
  | @primitive s t h =>
    rintro (_ | fuel) hfuel
    · cases hfuel
    · exact readFrom_primitive h
  | @ref t mutable h ih =>
    rintro (_ | fuel) hfuel
    · cases hfuel
    · have hsign : 0 < (if mutable then "&mut " else "&").toList.length := by cases mutable <;> decide
      rw [text, String.toList_append] at hfuel ⊢
      rw [length_append] at hfuel
      rw [readFrom_ref h.spelling, ih fuel (by omega)]
      rfl
  | @rawPtr t mutable h ih =>
    rintro (_ | fuel) hfuel
    · cases hfuel
    · have hsign : 0 < (if mutable then "*mut " else "*const ").toList.length := by
        cases mutable <;> decide
      rw [text, String.toList_append] at hfuel ⊢
      rw [length_append] at hfuel
      rw [readFrom_rawPtr h.spelling, ih fuel (by omega)]
      rfl
  | @slice t h ih =>
    rintro (_ | fuel) hfuel
    · cases hfuel
    · have hsplit : splitTop ';' t.text.toList 0 [] = _ := h.spelling.splitTop_last (.inr rfl) (by simp)
      rw [text_slice] at hfuel ⊢
      simp only [length_append, length_cons] at hfuel
      rw [(readFrom_square t.text.toList).1 _ hsplit, ih fuel (by omega)]
      rfl
  | @array t length h hlength ih =>
    rintro (_ | fuel) hfuel
    · cases hfuel
    · have hsplit : splitTop ';' (t.text.toList ++ ';' :: ' ' :: (toString length).toList) 0 []
          = [t.text.toList, (toString length).toList] := by
        rw [h.spelling.splitTop_cons (.inr rfl) (by simp)]
        exact congrArg (t.text.toList :: ·)
          ((spelling_toString length).splitTop_last (.inr rfl) isBlank_of_mem)
      have hn : integer (String.ofList (toString length).toList) = .ok length := by
        rw [String.ofList_toList, integer_toString hlength]
      rw [text_array] at hfuel ⊢
      simp only [length_append, length_cons] at hfuel
      rw [(readFrom_square _).2 _ _ length hsplit hn, ih fuel (by omega)]
      rfl
  | @tuple fields h ih =>
    rintro (_ | fuel) hfuel
    · cases hfuel
    · cases fields with
      | nil => exact readFrom_primitive (s := "()") (by simp [primitives])
      | cons t ts =>
        have hspelling : ∀ u ∈ t :: ts, Spelling u.text.toList := fun u hu => (h u hu).spelling
        have hinner : (texts (t :: ts)).toList ++ (if (t :: ts).length = 1 then [','] else []) ≠ [] := by
          have hle := length_text_le (mem_cons_self (a := t) (l := ts))
          have hpos := length_pos_iff.2 (hspelling t (by simp)).nonempty
          exact append_ne_nil_of_left_ne_nil (ne_nil_of_length_pos (by omega)) _
        have hnone : ∀ c ∈ ([] : List Char), isBlank c = true := by simp
        have hsplit := splitTop_texts (by simp) hspelling hnone
          (show (if (t :: ts).length = 1 then [','] else []) = [] ∨ _ by split <;> simp)
        rw [text_tuple] at hfuel ⊢
        rw [readFrom_round hinner, hsplit, mapM_map_ok]
        · rfl
        · intro u hu
          refine ih u hu fuel ?_
          have hle := length_text_le hu
          simp only [length_append, length_cons] at hfuel
          omega
  | fnPtr hstart henclosed htrimmed =>
    rintro (_ | fuel) hfuel
    · cases hfuel
    · exact readFrom_signature hstart
  | struct hword hnew hdeclared =>
    rintro (_ | fuel) hfuel
    · cases hfuel
    · refine (readFrom_word hword hnew).trans ?_
      rw [named, hdeclared]

end Reading

/-! ## Names that can be written -/

theorem anyFault?_eq_none (h : ∀ t ∈ ts, t.fault? = none) : anyFault? ts = none := by
  induction ts with
  | nil => rfl
  | cons t ts ih => simp [anyFault?, h t (by simp), ih fun u hu => h u (by simp [hu])]

/-- No part of a name is too long or no text. -/
theorem Nameable.faultless {structs : Structs} (h : Nameable structs t) :
    t.fault? = none ∧ t.labelFault? = none ∧ t.isTextual = true := by
  induction h with
  | @primitive s t h =>
    have hall : ∀ x ∈ primitives, x.2.fault?.isNone = true ∧ x.2.labelFault?.isNone = true ∧
        x.2.isTextual = true := by decide
    simpa using hall (s, t) h
  | ref _ _ ih | rawPtr _ _ ih | slice _ ih => exact ⟨by simp [fault?, ih], rfl, rfl⟩
  | array _ hlength ih => exact ⟨by simp [fault?, ih, hlength], rfl, rfl⟩
  | @tuple fields _ ih =>
    have hany : anyFault? fields = none := anyFault?_eq_none fun t ht => (ih t ht).1
    have htext : fields.all isTextual := all_eq_true.2 fun t ht => (ih t ht).2.2
    refine ⟨?_, rfl, rfl⟩
    rw [fault?, hany, Option.none_or]
    unfold joinFault?
    split
    · exact (ih _ (by simp)).2.1
    · exact if_pos htext
  | fnPtr => exact ⟨rfl, rfl, rfl⟩
  | struct => exact ⟨rfl, rfl, rfl⟩

theorem Nameable.name_eq {structs : Structs} (h : Nameable structs t) : t.name = .ok t.text := by
  obtain ⟨hfault, hlabel, -⟩ := h.faultless
  rw [name, nameFault?, hfault, hlabel]
  rfl

/-- The name of a type reads back as the type, so no other type has this name. -/
theorem read_name {structs : Structs} {t : Ty} (h : Nameable structs t) :
    ∃ s, t.name = .ok s ∧ (∀ fuel, s.length < fuel → readFrom structs s.toList fuel = .ok t) ∧
      read structs s = .ok t ∧ ∀ u, Nameable structs u → u.name = .ok s → u = t := by
  have hread {u : Ty} (hu : Nameable structs u) : read structs u.text = .ok u := by
    rw [read, strip_eq_self hu.spelling.trimmed]
    exact hu.readFrom_text _ (Nat.lt_succ_self _)
  refine ⟨t.text, h.name_eq, fun fuel hfuel => ?_, hread h, fun u hu hname => ?_⟩
  · exact h.readFrom_text fuel (String.length_toList ▸ hfuel)
  · have hsame := hread hu
    rw [hu.name_eq] at hname
    rw [Except.ok.inj hname, hread h] at hsame
    exact (Except.ok.inj hsame).symm

/-- An array of the least length that has too many digits has no name to read. -/
theorem not_read_name_too_long : ¬ ∃ s, (array u8 (Nat.pow 10 maxDigits)).name = .ok s ∧
    read [] s = .ok (array u8 (Nat.pow 10 maxDigits)) := by
  rintro ⟨s, hname, -⟩
  have hlength : isPrintableInt (Nat.pow 10 maxDigits) = false := by
    simp only [isPrintableInt, Int.natAbs_natCast, Nat.pow_eq, Nat.lt_irrefl, decide_false]
  generalize (Nat.pow 10 maxDigits : Int) = n at hname hlength
  simp [name, nameFault?, fault?, labelFault?, hlength] at hname

def pair : Ty := struct (.str "Pair_0") [u8, rawPtr bool true] false

/-- Tuples of none, one and several types, inside and outside of the other types. -/
theorem read_name_nested :
    let t := tuple [array (ref (slice (tuple [pair])) true) (-12), unit,
      fnPtr "fn(u8, [i8; 2]) -> (u8, u8)", rawPtr (ref str false) false]
    let s := "([&mut [(Pair_0,)]; -12], (), fn(u8, [i8; 2]) -> (u8, u8), *const &str)"
    t.name = .ok s ∧ read [("Pair_0", pair)] s = .ok t := by
  intro t s
  have hpair : Nameable [("Pair_0", pair)] pair :=
    .struct (by decide +kernel) (by decide +kernel) (by rfl)
  have harray : Nameable [("Pair_0", pair)] (array (ref (slice (tuple [pair])) true) (-12)) :=
    .array (.ref _ (.slice (.tuple (by simpa using hpair)))) (by decide +kernel)
  have hunit : Nameable [("Pair_0", pair)] unit := .tuple (by simp)
  have hfn : Nameable [("Pair_0", pair)] (fnPtr "fn(u8, [i8; 2]) -> (u8, u8)") :=
    .fnPtr (by decide +kernel) (by decide +kernel) (.of_ends (c := 'f') (d := ')') (by decide +kernel)
      (by decide +kernel) rfl rfl)
  have hstr : Nameable [("Pair_0", pair)] (rawPtr (ref str false) false) :=
    .rawPtr _ (.ref _ (.primitive (s := "str") (by simp [primitives])))
  have h : Nameable [("Pair_0", pair)] t := by
    refine .tuple fun u hu => ?_
    simp only [mem_cons, not_mem_nil, or_false] at hu
    rcases hu with rfl | rfl | rfl | rfl
    · exact harray
    · exact hunit
    · exact hfn
    · exact hstr
  have htext : t.text = s := by decide +kernel
  obtain ⟨s', hname, -, hread, -⟩ := read_name h
  obtain rfl : s = s' := Except.ok.inj (htext ▸ h.name_eq.symm.trans hname)
  exact ⟨hname, hread⟩

end SymExec.Ty

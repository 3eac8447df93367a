import SymExec.Yaml.Token

/-!
# Lines of a block mapping

A line of an indented key and a word is cut into the tokens of an entry (`Lexer.from_line`). The key
goes on with the mapping of its column, starts one, or ends one (`Lexer.Enters`), and the lexer stops
at the first word of the next line, where another key may start.
-/
namespace SymExec.Yaml

open List

variable {i l c n : Nat} {a e : Char} {w cs : List Char} {gs : List Glyph}

/-! ## Characters of names -/

theorem ne_of_isNameChar {b : Char} (ha : isNameChar a) (hb : isNameChar b = false) :
    a ≠ b := by
  rintro rfl
  rw [ha] at hb
  cases hb

theorem isGap_of_isNameChar (h : isNameChar a) : isGap a = false := by
  rw [Bool.eq_false_iff]
  intro hgap
  simp only [isGap, isEnd, isBreak, endMark, Bool.or_eq_true, beq_iff_eq] at hgap
  rcases hgap with (rfl | rfl) | rfl | ((rfl | rfl) | rfl) | rfl <;> cases h

theorem isBreak_of_isNameChar (h : isNameChar a) : isBreak a = false := by
  have hgap := isGap_of_isNameChar h
  simp only [isGap, isEnd, Bool.or_eq_false_iff] at hgap
  exact hgap.2.2

/-! ## Characters in their places -/

theorem peek_glyphsFrom : peek (glyphsFrom i l c cs) = cs.headD endMark := by
  cases cs <;> rfl

theorem column_glyphsFrom : column (glyphsFrom i l c cs) = c := by
  cases cs <;> rfl

theorem length_glyphsFrom : (glyphsFrom i l c cs).length = cs.length + 1 := by
  induction cs generalizing i l c with
  | nil => rfl
  | cons a cs ih =>
    unfold glyphsFrom
    split <;> simp [ih]

theorem glyphsFrom_name (h : isNameChar a) :
    glyphsFrom i l c (a :: cs) = ⟨a, i, l, c⟩ :: glyphsFrom (i + 1) l (c + 1) cs := by
  simp [glyphsFrom, isBreak_of_isNameChar h, ne_of_isNameChar (b := '\ufeff') h rfl]

/-- A reader that passes over a space passes over all of them. -/
theorem glyphsFrom_spaces {β : Type} {read : List Glyph → β}
    (hread : ∀ g gs, g.char = ' ' → read (g :: gs) = read gs) :
    read (glyphsFrom i l c (replicate n ' ' ++ cs))
      = read (glyphsFrom (i + n) l (c + n) cs) := by
  induction n generalizing i c with
  | zero => rfl
  | succ n ih =>
    rw [replicate_succ, cons_append]
    refine (hread _ _ rfl).trans (ih.trans ?_)
    rw [if_neg (by decide), Nat.add_assoc, Nat.add_assoc, Nat.add_comm 1]

theorem isDocumentMark_of_ne {mark : Char} (h : peek gs ≠ mark ∨ column gs ≠ 0) :
    isDocumentMark mark gs = false := by
  unfold isDocumentMark
  split
  · rcases h with h | h
    · rw [beq_false_of_ne (show Glyph.char _ ≠ mark from h)]
      simp
    · rw [beq_false_of_ne (show Glyph.column _ ≠ 0 from h)]
      rfl
  · rfl

/-! ## Plain scalars -/

/-- A word of letters, digits and dashes that is not a dash alone. -/
structure IsWord (w : List Char) : Prop where
  chars : ∀ a ∈ w, isNameChar a = true
  starts : ∃ a v, w = a :: v ∧ (a = '-' → v ≠ [])

theorem IsWord.head (hw : IsWord w) : ∀ a ∈ (w ++ cs).head?, isNameChar a = true := by
  obtain ⟨a, v, rfl, -⟩ := hw.starts
  simpa using hw.chars a mem_cons_self

/-- A dash starts a plain scalar only if another character follows. -/
theorem startsPlain_of_isNameChar (h : isNameChar (peek gs))
    (hdash : peek gs = '-' → isGap (peek (gs.drop 1)) = false) : startsPlain false gs := by
  by_cases hc : peek gs = '-'
  · simpa [startsPlain, hc] using hdash hc
  · have hspecial : "-?:,[]\x7b\x7d#&*!|>'\"%@`".contains (peek gs) = false := by
      rw [String.contains_char_eq, decide_eq_false_iff_not]
      intro hmem
      have hall : "-?:,[]\x7b\x7d#&*!|>'\"%@`".toList.all (fun b => b == '-' || !isNameChar b) = true := by
        decide
      simpa [hc, h] using all_eq_true.1 hall _ hmem
    simp only [startsPlain, isGap_of_isNameChar h, hspecial, Bool.or_self, Bool.not_false,
      Bool.true_or]

/-- A word ends ahead of a gap, and of a colon with a gap behind it. -/
theorem plainWord_name (hw : ∀ a ∈ w, isNameChar a = true)
    (he : endsPlain false e (cs.headD endMark)) :
    plainWord false (glyphsFrom i l c (w ++ e :: cs))
      = (w, glyphsFrom (i + w.length) l (c + w.length) (e :: cs)) := by
  induction w generalizing i c with
  | nil =>
    rw [nil_append, glyphsFrom]
    split <;> rw [plainWord, peek_glyphsFrom, if_pos he, glyphsFrom] <;> simp [*]
  | cons a w ih =>
    have ha := hw a (by simp)
    rw [cons_append, glyphsFrom_name ha, plainWord, if_neg, ih fun b hb => hw b (by simp [hb])]
    · simp only [length_cons, Nat.add_assoc, Nat.add_comm 1]
    · simp [endsPlain, isGap_of_isNameChar ha, ne_of_isNameChar (b := ':') ha rfl]

theorem plain_key {indent : Int} (hw : IsWord w) (he : isGap e) :
    plain false indent (glyphsFrom i l c (w ++ ':' :: e :: cs))
      = (w, false, glyphsFrom (i + w.length) l (c + w.length) (':' :: e :: cs)) := by
  have hends : endsPlain false ':' ((e :: cs).headD endMark) = true := by
    simp [endsPlain, he]
  rw [plain, plainWord_name hw.chars hends, length_glyphsFrom]
  simp [plainTail, separation, charsWhile, skipSpaces, dropChars, glyphsFrom, isBreak, peek]

/-- A scalar ends with its line if the next line is not indented further. -/
theorem plain_value {indent : Int} (hw : IsWord w) (hcs : ∀ a ∈ cs.head?, a.isAlphanum = true)
    (hn : n < indent) :
    plain false indent (glyphsFrom i l c (w ++ '\n' :: (replicate n ' ' ++ cs)))
      = (w, true, glyphsFrom (i + w.length + 1 + n) (l + 1) n cs) := by
  generalize hnext : glyphsFrom (i + w.length + 1) (l + 1) 0 (replicate n ' ' ++ cs) = next
  have hmark {mark : Char} (hm : mark.isAlphanum = false) (hs : ' ' ≠ mark) (hz : endMark ≠ mark) :
      isDocumentMark mark next = false := by
    refine isDocumentMark_of_ne (.inl fun hpeek => ?_)
    rw [← hnext, peek_glyphsFrom] at hpeek
    cases n with
    | succ n => exact hs hpeek
    | zero =>
      cases cs with
      | nil => exact hz hpeek
      | cons a cs => exact absurd (hcs a rfl) (by simp [show a = mark from hpeek, hm])
  have hedge : isDocumentEdge next = false := by
    rw [isDocumentEdge, hmark rfl (by decide) (by decide), hmark rfl (by decide) (by decide)]
    rfl
  have hbreaks : plainBreaks next = (some [], glyphsFrom (i + w.length + 1 + n) (l + 1) n cs) := by
    rw [← hnext]
    refine (glyphsFrom_spaces fun g gs h => by simp [plainBreaks, h]).trans ?_
    rw [Nat.zero_add]
    cases cs with
    | nil => rfl
    | cons a cs =>
      have ha : isNameChar a := by simp [isNameChar, hcs a rfl]
      simp [glyphsFrom_name ha, plainBreaks, isBreak_of_isNameChar ha,
        ne_of_isNameChar (b := ' ') ha rfl]
  rw [plain, plainWord_name hw.chars (by simp [endsPlain, isGap, isEnd, isBreak]), length_glyphsFrom]
  simp [plainTail, separation, skipSpaces, dropChars, glyphsFrom, hnext, isBreak, peek, hedge,
    hbreaks, folded, breakText, column_glyphsFrom, hn]

/-! ## Tokens -/

namespace Lexer

variable {x y : Lexer} {fuel : Nat} {ts ends lead : List Token} {indent inner : Int}
  {outer outer' : List Int} {allowed : Bool}

theorem skip_spaces (ts : List Token) (indent : Int) (outer : List Int) (allowed : Bool)
    (hcs : ∀ a ∈ cs.head?, isNameChar a = true) :
    skip ⟨glyphsFrom i l c (replicate n ' ' ++ cs), ts, 0, indent, outer, allowed, []⟩
      = ⟨glyphsFrom (i + n) l (c + n) cs, ts, 0, indent, outer, allowed, []⟩ := by
  have hskip : skipFrom false false allowed (glyphsFrom i l c (replicate n ' ' ++ cs))
      = (allowed, glyphsFrom (i + n) l (c + n) cs) := by
    refine (glyphsFrom_spaces fun g gs h => by simp [skipFrom, h, isBreak, endMark]).trans ?_
    cases cs with
    | nil => rfl
    | cons a cs =>
      have ha := hcs a rfl
      have hne {b : Char} := ne_of_isNameChar (b := b) ha
      simp [glyphsFrom_name ha, skipFrom, isBreak_of_isNameChar ha, endMark, hne (b := '\x00') rfl,
        hne (b := '#') rfl, hne (b := ' ') rfl]
  simp [skip, inFlow, hskip]

theorem unwindFrom_of_le {column : Int} (h : indent ≤ column) :
    unwindFrom column indent outer = (indent, outer, []) := by
  cases outer with
  | nil => rfl
  | cons o outer => rw [unwindFrom, if_neg (by omega)]

theorem next_word (hw : IsWord w) (hcolumn : w.head? ≠ some '-' ∨ c ≠ 0)
    (hskip : x.skip = ⟨glyphsFrom i l c (w ++ cs), ts, 0, indent, outer, allowed, []⟩)
    (hunwind : unwindFrom c indent outer = (inner, outer', ends)) :
    x.next = plainScalar
      ⟨glyphsFrom i l c (w ++ cs), ts ++ ends, 0, inner, outer', allowed, []⟩ := by
  obtain ⟨a, v, rfl, hstart⟩ := hw.starts
  have ha := hw.chars a mem_cons_self
  have hne {b : Char} := ne_of_isNameChar (b := b) ha
  have hforget : x.skip.forgetStale = .ok x.skip := by
    rw [hskip]
    rfl
  generalize hgs : glyphsFrom i l c (a :: v ++ cs) = gs at hskip ⊢
  have hpeek : peek gs = a := hgs ▸ peek_glyphsFrom
  have hcol : column gs = c := hgs ▸ column_glyphsFrom
  have hmark : isDocumentMark '-' gs = false := by
    refine isDocumentMark_of_ne ?_
    rw [hpeek, hcol]
    exact hcolumn.imp (fun h heq => h (by simp [heq])) id
  have hpoint : isDocumentMark '.' gs = false := isDocumentMark_of_ne (.inl (hpeek ▸ hne rfl))
  have hsecond : peek gs = '-' → isGap (peek (gs.drop 1)) = false := by
    intro hc
    obtain ⟨b, v, rfl⟩ := exists_cons_of_ne_nil (hstart (hpeek ▸ hc))
    rw [← hgs, cons_append, glyphsFrom_name ha]
    exact isGap_of_isNameChar (hw.chars b (by simp))
  have hplain : startsPlain false gs := startsPlain_of_isNameChar (hpeek ▸ ha) hsecond
  have hdash : (a == '-' && isGap (peek (gs.drop 1))) = false := by
    by_cases hc : a = '-'
    · rw [hsecond (hpeek.trans hc), Bool.and_false]
    · rw [beq_false_of_ne hc, Bool.false_and]
  unfold next
  rw [hforget, hskip]
  simp only [bind, Except.bind, unwind, inFlow, hcol, hunwind, bne_self_eq_false,
    Bool.false_eq_true, if_false, hpeek]
  split
  iterate 11 exact absurd ha (by decide)
  rw [hmark, hpoint, hdash, hplain]
  simp [hne (b := '%') rfl, hne (b := '?') rfl, hne (b := ':') rfl, hne (b := '|') rfl,
    hne (b := '>') rfl]

/-- A word where a key may start is remembered. -/
theorem next_scalar {broken : Bool} (hw : IsWord w) (hcolumn : w.head? ≠ some '-' ∨ c ≠ 0)
    (hskip : x.skip = ⟨glyphsFrom i l c (w ++ cs), ts, 0, indent, outer, allowed, []⟩)
    (hunwind : unwindFrom c indent outer = (inner, outer', ends))
    (hplain : plain false (inner + 1) (glyphsFrom i l c (w ++ cs)) = (w, broken, gs)) :
    ∃ a required, x.next = .ok
      ⟨gs, ts ++ ends ++ [.scalar true (.text w)], 0, inner, outer', broken,
        if allowed then [⟨0, (ts ++ ends).length, required, ⟨a, i, l, c⟩⟩] else []⟩ := by
  rw [next_word hw hcolumn hskip hunwind]
  obtain ⟨a, v, rfl, -⟩ := hw.starts
  refine ⟨a, inner == c, ?_⟩
  rw [cons_append, glyphsFrom_name (hw.chars a mem_cons_self)] at hplain ⊢
  cases allowed <;>
    simp [plainScalar, remember, forgetLevel, forget, inFlow, hplain, emit, bind, Except.bind, pure,
      Except.pure]

theorem insertIdx_length_append {α : Type} (xs ys : List α) (y : α) :
    (xs ++ ys).insertIdx xs.length y = xs ++ y :: ys := by
  induction xs with
  | nil => simp
  | cons x xs ih => simpa using ih

theorem next_colon (start : Glyph) {required : Bool} {t : Token} (he : isGap e)
    (hinner : inner ≤ c) (hline : start.line = l) (hindex : i - start.index ≤ 1024) :
    next ⟨glyphsFrom i l c (':' :: e :: cs), ts ++ [t], 0, inner, outer, false,
        [⟨0, ts.length, required, start⟩]⟩
      = .ok ((openBlock start.column ts.length .blockMapping
          ⟨glyphsFrom (i + 1) l (c + 1) (e :: cs), ts ++ [.key, t], 0, inner, outer, false, []⟩).emit
            .value) := by
  generalize hgs : glyphsFrom (i + 1) l (c + 1) (e :: cs) = gs
  have hpeek : peek gs = e := hgs ▸ peek_glyphsFrom
  rw [show glyphsFrom i l c (':' :: e :: cs) = ⟨':', i, l, c⟩ :: gs from hgs ▸ rfl]
  generalize hx : Lexer.mk (⟨':', i, l, c⟩ :: gs) (ts ++ [t]) 0 inner outer false
    [⟨0, ts.length, required, start⟩] = x
  have hskip : x.skip = x := hx ▸ rfl
  have hforget : x.forgetStale = .ok x := by
    rw [← hx]
    simp [forgetStale, forget, isStale, hline, Nat.not_lt.2 hindex]
  have hunwind : x.unwind (column x.rest) = x := by
    rw [← hx]
    simp [unwind, inFlow, column, unwindFrom_of_le hinner]
  have hhead : peek x.rest = ':' := hx ▸ rfl
  have hsecond : isGap (peek (x.rest.drop 1)) = true := by
    rw [← hx]
    exact hpeek ▸ he
  have hmark {mark : Char} (h : ':' ≠ mark) : isDocumentMark mark x.rest = false :=
    isDocumentMark_of_ne (.inl (hhead ▸ h))
  have hnext : x.next = x.colon := by
    unfold next
    rw [hskip, hforget]
    simp only [bind, Except.bind, hunwind]
    rw [hhead, hmark (by decide), hmark (by decide), hsecond]
    simp
  rw [hnext, ← hx]
  simp [colon, openBlock, take, emit, inFlow, insertIdx_length_append]
  by_cases hdeep : inner < start.column <;> simp [hdeep]

theorem from_of_next {t : Token} (hnext : x.next = .ok y) (hlast : y.tokens = ts ++ [t])
    (ht : t ≠ .streamEnd) : Tokens.from (fuel + 1) x = Tokens.from fuel y := by
  rw [Tokens.from, hnext]
  simp [hlast, ht]

theorem skip_word (hw : IsWord w) :
    skip ⟨glyphsFrom i l c (w ++ cs), ts, 0, indent, outer, allowed, []⟩
      = ⟨glyphsFrom i l c (w ++ cs), ts, 0, indent, outer, allowed, []⟩ :=
  skip_spaces (n := 0) ts indent outer allowed hw.head

/-- How a key in a column goes on with the mapping there, starts one, or ends one. -/
inductive Enters (column : Int) : Int → List Int → List Token → List Int → Prop where
  | here {outer : List Int} : Enters column column outer [] outer
  | deeper {indent : Int} {outer : List Int} (h : indent < column) :
    Enters column indent outer [.blockMapping] (indent :: outer)
  | back {indent : Int} {outer : List Int} (h : column < indent) :
    Enters column indent (column :: outer) [.blockEnd] outer

/-- A key that may start a line, and is short enough to be remembered up to its colon. -/
structure IsKey (w : List Char) : Prop extends IsWord w where
  head_alphanum : ∀ a ∈ w.head?, a.isAlphanum = true
  length_le : w.length ≤ 1024

theorem from_key (h : Enters c indent outer lead outer') (hw : IsKey w) (he : isGap e) :
    Tokens.from (fuel + 2)
        ⟨glyphsFrom i l c (w ++ ':' :: e :: cs), ts, 0, indent, outer, true, []⟩
      = Tokens.from fuel ⟨glyphsFrom (i + w.length + 1) l (c + w.length + 1) (e :: cs),
          ts ++ lead ++ [.key, .scalar true (.text w), .value], 0, c, outer', false, []⟩ := by
  have hdash : w.head? ≠ some '-' := fun h => absurd (hw.head_alphanum _ h) (by decide)
  have hlength := hw.length_le
  have hsteps {ends : List Token} {inner : Int} {outer' : List Int}
      (hunwind : unwindFrom c indent outer = (inner, outer', ends)) (hinner : inner ≤ c) :
      Tokens.from (fuel + 2)
          ⟨glyphsFrom i l c (w ++ ':' :: e :: cs), ts, 0, indent, outer, true, []⟩
        = Tokens.from fuel ((openBlock c (ts ++ ends).length .blockMapping
            ⟨glyphsFrom (i + w.length + 1) l (c + w.length + 1) (e :: cs),
              ts ++ ends ++ [.key, .scalar true (.text w)], 0, inner, outer', false, []⟩).emit
                .value) := by
    obtain ⟨a, required, hword⟩ := next_scalar hw.toIsWord (.inl hdash) (skip_word hw.toIsWord)
      hunwind (plain_key hw.toIsWord he)
    refine (from_of_next hword rfl (by simp)).trans ?_
    refine from_of_next (next_colon ⟨a, i, l, c⟩ he (by omega) rfl ?_) rfl (by simp)
    simp only
    omega
  cases h with
  | here =>
    rw [hsteps (unwindFrom_of_le (Int.le_refl _)) (Int.le_refl _)]
    simp [openBlock, emit]
  | deeper h =>
    rw [hsteps (unwindFrom_of_le (Int.le_of_lt h)) (Int.le_of_lt h), openBlock, if_pos h]
    simp [emit, insertIdx_length_append]
  | back h =>
    rw [hsteps (by rw [unwindFrom, if_pos h, unwindFrom_of_le (Int.le_refl _)]) (Int.le_refl _)]
    simp [openBlock, emit]

theorem from_value (hw : IsWord w) (hindent : indent ≤ c) (hn : n ≤ indent)
    (hcs : ∀ a ∈ cs.head?, a.isAlphanum = true) :
    Tokens.from (fuel + 1) ⟨glyphsFrom i l c (' ' :: (w ++ '\n' :: (replicate n ' ' ++ cs))),
        ts, 0, indent, outer, false, []⟩
      = Tokens.from fuel ⟨glyphsFrom (i + 1 + w.length + 1 + n) (l + 1) n cs,
          ts ++ [.scalar true (.text w)], 0, indent, outer, true, []⟩ := by
  have hunwind : unwindFrom ((c + 1 : Nat) : Int) indent outer = (indent, outer, []) :=
    unwindFrom_of_le (by omega)
  have hplain := plain_value (i := i + 1) (l := l) (c := c + 1) hw hcs (Int.lt_add_one_of_le hn)
  obtain ⟨a, required, hword⟩ := next_scalar hw (.inr (Nat.succ_ne_zero _))
    (skip_spaces (n := 1) ts indent outer false hw.head) hunwind hplain
  rw [append_nil, replicate_one, singleton_append] at hword
  rw [from_of_next hword rfl (by simp)]
  rfl

theorem from_of_skip (hskip : x.skip = y.skip) (htokens : x.tokens = y.tokens)
    (hx : x.candidates = []) (hy : y.candidates = []) :
    Tokens.from (fuel + 1) x = Tokens.from (fuel + 1) y := by
  have hnext : x.next = y.next := by
    unfold next
    rw [hskip]
  rw [Tokens.from, Tokens.from, hnext, settled, settled, hx, hy, htokens]
  rfl

/-- A line feed behind a key is passed over, with the indentation of the next line. -/
theorem from_newline (hcs : ∀ a ∈ cs.head?, a.isAlphanum = true) :
    Tokens.from (fuel + 1) ⟨glyphsFrom i l c ('\n' :: (replicate n ' ' ++ cs)), ts, 0, indent,
        outer, false, []⟩
      = Tokens.from (fuel + 1)
          ⟨glyphsFrom (i + 1 + n) (l + 1) n cs, ts, 0, indent, outer, true, []⟩ := by
  have hname : ∀ a ∈ cs.head?, isNameChar a = true := fun a ha => by simp [isNameChar, hcs a ha]
  have hthere := skip_spaces (i := i + 1) (l := l + 1) (c := 0) (n := n) ts indent outer true hname
  have hhere := skip_spaces (i := i + 1 + n) (l := l + 1) (c := n) (n := 0) ts indent outer true hname
  rw [Nat.zero_add] at hthere
  exact from_of_skip (hthere.trans hhere.symm) rfl rfl rfl

def entryTokens (k v : List Char) : List Token :=
  [.key, .scalar true (.text k), .value, .scalar true (.text v)]

def entryLine (k v rest : List Char) : List Char := k ++ ':' :: ' ' :: (v ++ '\n' :: rest)

theorem IsKey.head_line (hw : IsKey w) {v rest : List Char} :
    ∀ a ∈ (entryLine w v rest).head?, a.isAlphanum = true := by
  obtain ⟨a, u, rfl, -⟩ := hw.starts
  exact hw.head_alphanum

theorem from_line {k v : List Char} (h : Enters c indent outer lead outer') (hk : IsKey k)
    (hv : IsWord v) (hn : n ≤ c) (hcs : ∀ a ∈ cs.head?, a.isAlphanum = true) :
    Tokens.from (fuel + 3) ⟨glyphsFrom i l c (entryLine k v (replicate n ' ' ++ cs)), ts, 0,
        indent, outer, true, []⟩
      = Tokens.from fuel ⟨glyphsFrom (i + k.length + 1 + 1 + v.length + 1 + n) (l + 1) n cs,
          ts ++ lead ++ entryTokens k v, 0, c, outer', true, []⟩ := by
  rw [entryLine, from_key h hk rfl, from_value hv (by omega) (by omega) hcs]
  simp [entryTokens]

/-- The end closes the mapping around all the others. -/
theorem from_end :
    Tokens.from (fuel + 1) ⟨glyphsFrom i l 0 [], ts, 0, 0, [-1], allowed, []⟩
      = ⟨ts ++ [.blockEnd, .streamEnd], none⟩ := by
  have hnext : next ⟨glyphsFrom i l 0 [], ts, 0, 0, [-1], allowed, []⟩ = .ok
      ⟨glyphsFrom i l 0 [], ts ++ [] ++ [.blockEnd] ++ [.streamEnd], 0, -1, [], false, []⟩ := rfl
  rw [Tokens.from, hnext]
  simp

end Lexer
end SymExec.Yaml

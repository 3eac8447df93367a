import Mathlib
import SymExec.Config.File
import SymExec.Proofs.Lines
import SymExec.Proofs.Numeral

/-!
# Configurations as text

The text of a configuration is read back as that configuration (`Config.ofSource_toYaml`). Its lines
are cut into tokens, the tokens are composed to nodes, and the nodes get their values. An integer is
written in decimal and read as that integer (`Yaml.reads_toString`); if one has too many digits to be
written, there is no text.
-/
namespace SymExec.Yaml

open Lexer Text List

/-! ## Integers -/

/-- The digits of a number, without zeros ahead of it. -/
structure IsNumeral (ds : List Char) : Prop where
  digits : ∀ a ∈ ds, a.isDigit = true
  lead : ds = ['0'] ∨ ∃ a v, ds = a :: v ∧ a ≠ '0'

theorem head_toDigits {n : Nat} (h : n ≠ 0) : ∃ a v, Nat.toDigits 10 n = a :: v ∧ a ≠ '0' := by
  induction n using Nat.strongRecOn with
  | _ n ih =>
    by_cases hn : n < 10
    · exact ⟨n.digitChar, [], Nat.toDigits_of_lt_base hn, by simpa using h⟩
    · obtain ⟨a, v, hv, ha⟩ := ih (n / 10) (by omega) (by omega)
      exact ⟨a, _, by rw [Nat.toDigits_of_base_le (by decide) (by omega), hv]; rfl, ha⟩

theorem isNumeral_toDigits (n : Nat) : IsNumeral (Nat.toDigits 10 n) where
  digits _ h := isDigit_of_mem_toDigits h
  lead := by
    by_cases hn : n = 0
    · exact .inl (by rw [hn, Nat.toDigits_zero])
    · exact .inr (head_toDigits hn)

/-- No text is one of some words if each of them has a character that the text has not. -/
theorem contains_eq_false {inClass : Char → Bool} {cs : List Char} (words : List String)
    (hwords : ∀ s ∈ words, s.toList.all inClass = false) (hcs : ∀ a ∈ cs, inClass a = true) :
    words.contains (String.ofList cs) = false := by
  rw [Bool.eq_false_iff]
  intro h
  have hall := hwords _ (contains_iff_mem.1 h)
  rw [String.toList_ofList, all_eq_true.2 hcs] at hall
  cases hall

namespace IsNumeral

variable {ds cs : List Char} (h : IsNumeral ds)
include h

theorem notMem {a : Char} (ha : a.isDigit = false) : a ∉ ds :=
  fun hmem => ne_of_isDigit (h.digits a hmem) ha rfl

theorem looksUnsigned : looksUnsigned ds := by
  rcases h.lead with rfl | ⟨a, v, rfl, ha⟩
  · rfl
  · unfold Yaml.looksUnsigned
    split
    iterate 4 simp_all
    have hall : ((a :: v).all fun b => b.isDigit || b == '_') = true := by
      rw [all_eq_true]
      intro b hb
      simp [h.digits b hb]
    rw [splitOn_eq_singleton (h.notMem rfl)]
    simp only [isWhole, allOf, hall, headD_cons, h.digits a mem_cons_self]
    rfl

theorem ofText (hcs : cs = ds ∨ cs = '-' :: ds) : Tag.ofText cs = .int := by
  have hds : ∀ a ∈ ds, (a == '-' || a.isDigit) = true := fun a ha => by simp [h.digits a ha]
  have hmem : ∀ a ∈ cs, (a == '-' || a.isDigit) = true := by
    rcases hcs with rfl | rfl
    · exact hds
    · simpa using hds
  have hsign : (takeSign cs).2 = ds := by
    rcases hcs with rfl | rfl
    · rw [takeSign_digits h.digits]
    · rfl
  have hpoint : ds.dropWhile (· != '.') = [] := by
    rw [dropWhile_eq_nil_iff]
    exact fun a ha => by simpa using ne_of_isDigit (h.digits a ha) rfl
  have hfloat : looksFloat cs = false := by
    unfold looksFloat
    simp only [hsign, contains_eq_false [".inf", ".Inf", ".INF"] (by decide) hds,
      contains_eq_false [".nan", ".NaN", ".NAN"] (by decide) hmem, looksPointed, hpoint]
    rfl
  have hne : cs ≠ [] := by
    rcases h.lead with rfl | ⟨a, v, rfl, -⟩ <;> rcases hcs with rfl | rfl <;> simp
  have hlast : cs.getLast? ≠ some '\n' := fun hlast =>
    absurd (hmem _ (mem_of_getLast? hlast)) (by decide)
  have hbool := contains_eq_false ["yes", "Yes", "YES", "no", "No", "NO", "true", "True", "TRUE",
    "false", "False", "FALSE", "on", "On", "ON", "off", "Off", "OFF"] (by decide) hmem
  unfold Tag.ofText
  simp only [if_neg hlast, List.isEmpty_iff, hne, if_false, hbool, hfloat, hsign, h.looksUnsigned,
    Bool.false_eq_true, if_true]

theorem intValue {n : Int} {negative : Bool} (hn : integer (String.ofList ds) = .ok n)
    (hcs : unsignedBody cs = .ok (negative, ds)) :
    intValue cs = .ok (if negative then -n else n) := by
  have hcolon : ds.contains ':' = false := by simpa using h.notMem rfl
  unfold Yaml.intValue
  rw [hcs]
  rcases h.lead with rfl | ⟨a, v, rfl, ha⟩
  · cases hn
    rfl
  · simp only [bind, Except.bind]
    split
    iterate 5 simp_all
    rw [hcolon, hn]
    rfl

theorem unsignedBody_eq :
    unsignedBody ds = .ok (false, ds) ∧ unsignedBody ('-' :: ds) = .ok (true, ds) := by
  have hfilter : ds.filter (· != '_') = ds := by
    rw [filter_eq_self]
    exact fun a ha => by simpa using ne_of_isDigit (h.digits a ha) rfl
  constructor
  · rw [unsignedBody, hfilter]
    split
    · rcases h.lead with hl | ⟨_, _, hl, -⟩ <;> cases hl
    · exact absurd mem_cons_self (h.notMem (a := '-') rfl)
    · exact absurd mem_cons_self (h.notMem (a := '+') rfl)
    · rfl
  · simp [unsignedBody, hfilter]

end IsNumeral

theorem isWord_toString (n : Int) : IsWord (toString n).toList := by
  constructor
  · intro a ha
    rcases mem_toString ha with rfl | hdigit
    · rfl
    · simp [isNameChar, Char.isAlphanum, hdigit]
  · rw [toList_toString]
    have hne := Nat.toDigits_ne_nil (n := n.natAbs) (b := 10)
    split
    · obtain ⟨a, v, hv⟩ := exists_cons_of_ne_nil hne
      refine ⟨a, v, hv, fun ha => ?_⟩
      exact absurd (isDigit_of_mem_toDigits (hv ▸ mem_cons_self)) (by simp [ha])
    · exact ⟨'-', _, rfl, fun _ => hne⟩

structure Reads (w : List Char) (v : Json) : Prop where
  tag : Tag.ofText w = .str ∨ Tag.ofText w = .int ∨ Tag.ofText w = .null
  value : scalarValue (.ofText w) (.text w) = .ok (.value v)

/-- An integer in decimal is read as that integer. -/
theorem reads_toString {n : Int} (h : isPrintableInt n) :
    Reads (toString n).toList (.int n) := by
  have hnum := isNumeral_toDigits n.natAbs
  have hint : integer (String.ofList (Nat.toDigits 10 n.natAbs)) = .ok (n.natAbs : Int) := by
    have habs := integer_toString (n := (n.natAbs : Int)) (by rwa [isPrintableInt])
    rwa [← String.ofList_toList (s := toString (n.natAbs : Int)), toList_toString,
      if_pos (Int.natCast_nonneg _)] at habs
  have hreads {cs : List Char} {negative : Bool}
      (hcs : cs = Nat.toDigits 10 n.natAbs ∨ cs = '-' :: Nat.toDigits 10 n.natAbs)
      (hbody : unsignedBody cs = .ok (negative, Nat.toDigits 10 n.natAbs))
      (hsign : (if negative then -(n.natAbs : Int) else n.natAbs) = n) : Reads cs (.int n) := by
    refine ⟨.inr (.inl (hnum.ofText hcs)), ?_⟩
    simp only [hnum.ofText hcs, scalarValue, hnum.intValue hint hbody, hsign]
    rfl
  rw [toList_toString]
  split
  · exact hreads (.inl rfl) hnum.unsignedBody_eq.1 (show (n.natAbs : Int) = n by omega)
  · exact hreads (.inr rfl) hnum.unsignedBody_eq.2 (show -(n.natAbs : Int) = n by omega)

/-! ## Tokens and nodes -/

/-- The text of a configuration with these words for its values. -/
def configText (s m f i t : List Char) : List Char :=
  "limits".toList ++ ':' :: '\n' :: (replicate 2 ' ' ++
    entryLine "step-limit".toList s (replicate 2 ' ' ++
    entryLine "memory-size".toList m (replicate 2 ' ' ++
    entryLine "stack-limit".toList f (replicate 0 ' ' ++
    entryLine "symbolic-input-len".toList i (replicate 0 ' ' ++
    entryLine "solver-timeout-ms".toList t (replicate 0 ' ' ++ []))))))

/-- The tokens of a mapping of three entries, the first of which is a mapping of three. -/
def nestedTokens (l ks s km m kf f ki i kt t : List Char) : List Token :=
  [.blockMapping, .key, .scalar true (.text l), .value, .blockMapping] ++ entryTokens ks s ++
    entryTokens km m ++ entryTokens kf f ++ [.blockEnd] ++ entryTokens ki i ++ entryTokens kt t ++
    [.blockEnd, .streamEnd]

def wordNode (w : List Char) : Node := .scalar (.ofText w) (.text w)

def nestedNodes (l ks s km m kf f ki i kt t : List Char) : Graph := #[
  .mapping .map [(1, 2), (9, 10), (11, 12)],
  wordNode l, .mapping .map [(3, 4), (5, 6), (7, 8)],
  wordNode ks, wordNode s, wordNode km, wordNode m, wordNode kf, wordNode f,
  wordNode ki, wordNode i, wordNode kt, wordNode t]

/-- The composer asks for the sort of a word, and does not look at the word otherwise. -/
theorem ofTokens_nested (l ks s km m kf f ki i kt t : List Char) :
    Graph.ofTokens ⟨nestedTokens l ks s km m kf f ki i kt t, none⟩
      = .ok (nestedNodes l ks s km m kf f ki i kt t, some 0) := by
  cbv

def configTokens (s m f i t : List Char) : List Token :=
  nestedTokens "limits".toList "step-limit".toList s "memory-size".toList m "stack-limit".toList f
    "symbolic-input-len".toList i "solver-timeout-ms".toList t

def configNodes (s m f i t : List Char) : Graph :=
  nestedNodes "limits".toList "step-limit".toList s "memory-size".toList m "stack-limit".toList f
    "symbolic-input-len".toList i "solver-timeout-ms".toList t

variable {s m f i t : List Char} {a b c d e : Json}

theorem isKey_of {k : List Char} (hall : k.all isNameChar)
    (hhead : (k.headD '-').isAlphanum) (hlength : k.length ≤ 1024) : IsKey k := by
  cases k with
  | nil => cases hhead
  | cons a v =>
    refine ⟨⟨all_eq_true.1 hall, a, v, rfl, ?_⟩, by simpa using hhead, hlength⟩
    rintro rfl
    cases hhead

theorem ofChars_config (h : ∀ w ∈ [s, m, f, i, t], IsWord w) :
    Tokens.ofChars (configText s m f i t) = ⟨configTokens s m f i t, none⟩ := by
  obtain ⟨fuel, hfuel⟩ : ∃ fuel, (configText s m f i t).length + 2 = fuel + 18 := by
    have htext : ∃ rest, configText s m f i t = "limits:\n  step-limit: ".toList ++ rest := ⟨_, rfl⟩
    obtain ⟨rest, hrest⟩ := htext
    refine ⟨rest.length + 6, ?_⟩
    rw [hrest, length_append]
    simp
    omega
  have hlimits : IsKey "limits".toList := isKey_of rfl rfl (by decide)
  have hsteps : IsKey "step-limit".toList := isKey_of rfl rfl (by decide)
  have hmemory : IsKey "memory-size".toList := isKey_of rfl rfl (by decide)
  have hframes : IsKey "stack-limit".toList := isKey_of rfl rfl (by decide)
  have hinput : IsKey "symbolic-input-len".toList := isKey_of rfl rfl (by decide)
  have htimeout : IsKey "solver-timeout-ms".toList := isKey_of rfl rfl (by decide)
  have hglyphs : glyphs (configText s m f i t) = glyphsFrom 0 0 0 (configText s m f i t) := rfl
  rw [Tokens.ofChars, hglyphs, length_glyphsFrom, hfuel]
  delta configText
  refine (from_key (.deeper (by decide)) hlimits rfl).trans ?_
  refine (from_newline hsteps.head_line).trans ?_
  refine (from_line (.deeper (by decide)) hsteps (h s (by simp)) (by decide)
    hmemory.head_line).trans ?_
  refine (from_line .here hmemory (h m (by simp)) (by decide) hframes.head_line).trans ?_
  refine (from_line .here hframes (h f (by simp)) (by decide) hinput.head_line).trans ?_
  refine (from_line (.back (by decide)) hinput (h i (by simp)) (by decide)
    htimeout.head_line).trans ?_
  refine (from_line .here htimeout (h t (by simp)) (by decide) (by simp)).trans ?_
  exact from_end

theorem isAllowed_of_isNameChar {a : Char} (h : isNameChar a) : isAllowed a := by
  simp only [isNameChar, Char.isAlphanum, Char.isAlpha, Char.isUpper, Char.isLower, Char.isDigit,
    Bool.or_eq_true, Bool.and_eq_true, decide_eq_true_eq, beq_iff_eq, ge_iff_le,
    UInt32.le_iff_toNat_le, Char.reduceVal, UInt32.reduceToNat] at h
  rcases h with (h | rfl) | rfl
  · have hrange : 0x20 ≤ a.toNat ∧ a.toNat ≤ 0x7e := by
      rw [Char.toNat]
      omega
    simp [isAllowed, hrange]
  · rfl
  · rfl

theorem isAllowed_config (h : ∀ w ∈ [s, m, f, i, t], IsWord w) :
    (configText s m f i t).all isAllowed = true := by
  have hall : ∀ w ∈ [s, m, f, i, t], w.all isAllowed = true := fun w hw =>
    all_eq_true.2 fun a ha => isAllowed_of_isNameChar ((h w hw).chars a ha)
  simp only [forall_mem_cons] at hall
  obtain ⟨hs, hm, hf, hi, ht, -⟩ := hall
  delta configText
  simp only [entryLine, all_append, all_cons, hs, hm, hf, hi, ht, Bool.true_and]
  rfl

/-! ## Values -/

namespace Make

variable {nodes : Graph} {values : List (Nat × Made)} {waiting : List Nat} {number : Nat}
  {w : List Char} {v : Json} {done : List (Setting × Nat)} {y : Maker}

theorem bind_of_ok {α β : Type} {act : Make α} {f : α → Make β} {x : Maker} {a : α}
    (h : act x = .ok (a, y)) : (act >>= f) x = f a y := by
  change act x >>= _ = _
  rw [h]
  rfl

theorem value_word (h : Reads w v)
    (hnode : nodes.getD number (.scalar .null (.text [])) = wordNode w)
    (hnew : values.lookup number = none) :
    value number ⟨nodes, values, waiting⟩
      = .ok (.scalar (.value v), ⟨nodes, (number, .scalar (.value v)) :: values, waiting⟩) := by
  have hget : node number ⟨nodes, values, waiting⟩ = .ok (wordNode w, ⟨nodes, values, waiting⟩) :=
    hnode ▸ rfl
  have hcontent : scalarContent (nodes.size + 1) number ⟨nodes, values, waiting⟩
      = .ok (.text w, ⟨nodes, values, waiting⟩) := by
    rw [scalarContent]
    exact bind_of_ok hget
  have hlift : (liftM (scalarValue (.ofText w) (.text w)) : Make Setting) ⟨nodes, values, waiting⟩
      = .ok (.value v, ⟨nodes, values, waiting⟩) := by
    rw [h.value]
    rfl
  have htag := h.tag
  unfold value
  refine (bind_of_ok (a := ⟨nodes, values, waiting⟩) rfl).trans ?_
  simp only [hnew]
  refine (bind_of_ok hget).trans ?_
  rw [wordNode, Node.tag]
  generalize Tag.ofText w = tag at htag hlift
  rcases htag with rfl | rfl | rfl <;> exact (bind_of_ok hcontent).trans (bind_of_ok hlift)

def addEntry (done : List (Setting × Nat)) (e : Nat × Nat) : Make (List (Setting × Nat)) := do
  match ← value e.1 with
  | .scalar k =>
    let _ ← value e.2
    return insert k e.2 done
  | _ => throw .malformed

theorem addEntry_of_ok {e : Nat × Nat} {made : Made} (h : Reads w v)
    (hkey : nodes.getD e.1 (.scalar .null (.text [])) = wordNode w)
    (hnew : values.lookup e.1 = none)
    (hitem : value e.2 ⟨nodes, (e.1, .scalar (.value v)) :: values, waiting⟩ = .ok (made, y)) :
    addEntry done e ⟨nodes, values, waiting⟩ = .ok (insert (.value v) e.2 done, y) :=
  (bind_of_ok (value_word h hkey hnew)).trans (bind_of_ok hitem)

/-- A mapping of three entries without merge keys. -/
theorem fill_mapping {x y1 y2 : Maker} {a b c : Nat × Nat} {made1 made2 made3 : List (Setting × Nat)}
    (hnode : x.nodes.getD number (.scalar .null (.text [])) = .mapping .map [a, b, c])
    (hflat : flatten (x.nodes.size + 1) number x = .ok ((), x))
    (ha : addEntry [] a x = .ok (made1, y1)) (hb : addEntry made1 b y1 = .ok (made2, y2))
    (hc : addEntry made2 c y2 = .ok (made3, ⟨nodes, values, waiting⟩)) :
    fill number x = .ok ((), ⟨nodes, (number, .mapping made3) :: values, waiting⟩) := by
  have hget : node number x = .ok (.mapping .map [a, b, c], x) := hnode ▸ rfl
  have hfold : [a, b, c].foldlM addEntry [] x = .ok (made3, ⟨nodes, values, waiting⟩) :=
    (bind_of_ok ha).trans ((bind_of_ok hb).trans (bind_of_ok hc))
  refine (bind_of_ok hget).trans ?_
  dsimp only [Node.tag]
  refine (bind_of_ok (y := ⟨nodes, values, waiting⟩) (a := made3) ?_).trans rfl
  exact (bind_of_ok (a := x) rfl).trans ((bind_of_ok hflat).trans ((bind_of_ok hget).trans hfold))

theorem fillAll_cons {fuel : Nat} (h : fill number ⟨nodes, values, waiting⟩ = .ok ((), y)) :
    fillAll (fuel + 1) ⟨nodes, values, number :: waiting⟩ = fillAll fuel y :=
  (bind_of_ok (a := ⟨nodes, values, number :: waiting⟩) rfl).trans
    ((bind_of_ok (a := ()) rfl).trans (bind_of_ok h))

end Make

def configSetting (a b c d e : Json) : Setting :=
  .mapping [
    (.value (.str "limits"), .mapping [(.value (.str "step-limit"), .value a),
      (.value (.str "memory-size"), .value b), (.value (.str "stack-limit"), .value c)]),
    (.value (.str "symbolic-input-len"), .value d), (.value (.str "solver-timeout-ms"), .value e)]

open Make in
theorem fillAll_config (hs : Reads s a) (hm : Reads m b) (hf : Reads f c) (hi : Reads i d)
    (ht : Reads t e) :
    ∃ x, (do
      let _ ← Make.value 0
      Make.fillAll 14 : Make Unit).run { nodes := configNodes s m f i t } = .ok ((), x) ∧
        x.setting 2 0 = configSetting a b c d e := by
  have hlimits : Reads "limits".toList (.str "limits") := ⟨.inl rfl, rfl⟩
  have hsteps : Reads "step-limit".toList (.str "step-limit") := ⟨.inl rfl, rfl⟩
  have hmemory : Reads "memory-size".toList (.str "memory-size") := ⟨.inl rfl, rfl⟩
  have hframes : Reads "stack-limit".toList (.str "stack-limit") := ⟨.inl rfl, rfl⟩
  have hinput : Reads "symbolic-input-len".toList (.str "symbolic-input-len") := ⟨.inl rfl, rfl⟩
  have htimeout : Reads "solver-timeout-ms".toList (.str "solver-timeout-ms") := ⟨.inl rfl, rfl⟩
  have houter : fill 0 ⟨configNodes s m f i t, [(0, .mapping [])], []⟩ = _ := fill_mapping rfl rfl
    (addEntry_of_ok hlimits (y := ⟨configNodes s m f i t, [(2, .mapping []),
      (1, .scalar (.value (.str "limits"))), (0, .mapping [])], [2]⟩) rfl rfl rfl)
    (addEntry_of_ok hinput rfl rfl (value_word hi rfl rfl))
    (addEntry_of_ok htimeout rfl rfl (value_word ht rfl rfl))
  exact ⟨_, (bind_of_ok rfl).trans ((fillAll_cons houter).trans ((fillAll_cons (fill_mapping rfl rfl
    (addEntry_of_ok hsteps rfl rfl (value_word hs rfl rfl))
    (addEntry_of_ok hmemory rfl rfl (value_word hm rfl rfl))
    (addEntry_of_ok hframes rfl rfl (value_word hf rfl rfl)))).trans rfl)), rfl⟩

theorem read_config (h : ∀ w ∈ [s, m, f, i, t], IsWord w) (hs : Reads s a) (hm : Reads m b)
    (hf : Reads f c) (hi : Reads i d) (ht : Reads t e) :
    read 2 (String.ofList (configText s m f i t)) = .ok (configSetting a b c d e) := by
  obtain ⟨x, hx, hsetting⟩ := fillAll_config hs hm hf hi ht
  have hgraph : Graph.ofTokens ⟨configTokens s m f i t, none⟩ = .ok (configNodes s m f i t, some 0) :=
    ofTokens_nested ..
  unfold read
  simp only [String.toList_ofList, isAllowed_config h, ofChars_config h, hgraph, Bool.not_true,
    Bool.false_eq_true, if_false]
  refine (congrArg (· >>= fun r => Except.ok (r.2.setting 2 0)) hx).trans ?_
  exact congrArg Except.ok hsetting

end SymExec.Yaml

namespace SymExec.Config

open Yaml Text List

theorem map_eq_ofList (s : String) (f : Char → Char) : s.map f = String.ofList (s.toList.map f) := by
  rw [← String.toList_inj, String.toList_map, String.toList_ofList]

theorem ofSetting_config {a b c d : Int} {e : Option Int} :
    ofSetting (configSetting (.int a) (.int b) (.int c) (.int d) (e.elim .null .int))
      = .ok ⟨⟨a, b, c⟩, d, e⟩ := by
  unfold ofSetting normalize configSetting
  simp only [foldlM_cons, Setting.name, map_eq_ofList]
  cases e <;> rfl

theorem unifyBreaks_eq {cs : List Char} (h : '\r' ∉ cs) : Source.unifyBreaks cs = cs := by
  fun_induction Source.unifyBreaks cs <;> simp_all

def integers (c : Config) : List Int :=
  [c.limits.steps, c.limits.memory, c.limits.frames, c.inputLength] ++ c.solverTimeout.toList

/-- The text of a configuration whose integers can be written. -/
def written (c : Config) : String :=
  "limits:\n" ++ ("  step-limit: " ++ toString c.limits.steps ++ "\n") ++
    ("  memory-size: " ++ toString c.limits.memory ++ "\n") ++
    ("  stack-limit: " ++ toString c.limits.frames ++ "\n") ++
    ("symbolic-input-len: " ++ toString c.inputLength ++ "\n") ++
    ("solver-timeout-ms: " ++ c.solverTimeout.elim "null" toString ++ "\n")

theorem toYaml_eq (c : Config) :
    c.toYaml = if c.integers.all isPrintableInt then .ok c.written else .error .unprintable := by
  obtain ⟨⟨steps, memory, frames⟩, inputLength, timeout⟩ := c
  unfold toYaml integers decimal
  cases timeout with
  | none =>
    simp only [Option.toList_none, append_nil, all_cons, all_nil, Bool.and_true]
    cases isPrintableInt steps <;> cases isPrintableInt memory <;> cases isPrintableInt frames <;>
      cases isPrintableInt inputLength <;> rfl
  | some timeout =>
    simp only [Option.toList_some, cons_append, nil_append, all_cons, all_nil,
      Bool.and_true]
    cases isPrintableInt steps <;> cases isPrintableInt memory <;> cases isPrintableInt frames <;>
      cases isPrintableInt inputLength <;> cases isPrintableInt timeout <;> rfl

theorem toList_written (c : Config) : c.written.toList
    = configText (toString c.limits.steps).toList (toString c.limits.memory).toList
        (toString c.limits.frames).toList (toString c.inputLength).toList
        (c.solverTimeout.elim "null" toString).toList := by
  delta configText
  simp [written, Lexer.entryLine]

theorem ofSource_written {c : Config} (path : String)
    (h : ∀ n ∈ c.integers, isPrintableInt n = true) : ofSource path (.ofText c.written) = .ok c := by
  have hint {n : Int} (hn : n ∈ c.integers) := reads_toString (h n hn)
  obtain ⟨hword, htimeout⟩ : IsWord (c.solverTimeout.elim "null" toString).toList ∧
      Reads (c.solverTimeout.elim "null" toString).toList (c.solverTimeout.elim .null .int) := by
    cases htimeout : c.solverTimeout with
    | none => exact ⟨⟨all_eq_true.1 rfl, _, _, rfl, by decide⟩, .inr (.inr (by decide)), rfl⟩
    | some n => exact ⟨isWord_toString n, hint (by simp [integers, htimeout])⟩
  have hwords : ∀ w ∈ [(toString c.limits.steps).toList, (toString c.limits.memory).toList,
      (toString c.limits.frames).toList, (toString c.inputLength).toList,
      (c.solverTimeout.elim "null" toString).toList], IsWord w := by
    simp only [forall_mem_cons, isWord_toString, hword, true_and]
    simp
  have hplain : '\r' ∉ c.written.toList := by
    rw [toList_written]
    intro hmem
    cases all_eq_true.1 (isAllowed_config hwords) _ hmem
  have hread := read_config hwords (hint (by simp [integers])) (hint (by simp [integers]))
    (hint (by simp [integers])) (hint (by simp [integers])) htimeout
  rw [Source.ofText, unifyBreaks_eq hplain, toList_written]
  unfold ofSource
  simp only [depth, hread]
  exact ofSetting_config

/-- The text of a configuration is read back as that configuration. There is no text if one of its
integers has too many digits to be written. -/
theorem ofSource_toYaml (c : Config) (path : String) :
    ((∀ n ∈ c.integers, isPrintableInt n = true) →
        ∃ text, c.toYaml = .ok text ∧ ofSource path (.ofText text) = .ok c) ∧
      ((∃ n ∈ c.integers, isPrintableInt n = false) → c.toYaml = .error .unprintable) := by
  rw [toYaml_eq]
  constructor
  · intro h
    exact ⟨c.written, if_pos (all_eq_true.2 h), ofSource_written path h⟩
  · rintro ⟨n, hn, hlong⟩
    refine if_neg fun h => ?_
    rw [all_eq_true.1 h n hn] at hlong
    cases hlong

/-- A negative limit, no memory, and no limit on the time of the solver. -/
theorem ofSource_toYaml_sample :
    ∃ text, ({ limits := { steps := -7, memory := 0 }, solverTimeout := none } : Config).toYaml
        = .ok text ∧
      ofSource "conf.yaml" (.ofText text)
        = .ok { limits := { steps := -7, memory := 0 }, solverTimeout := none } := by
  refine (ofSource_toYaml _ "conf.yaml").1 fun n hn => ?_
  have hsmall : n.natAbs < 10 ^ 9 := by
    simp [integers] at hn
    rcases hn with rfl | rfl | rfl | rfl <;> decide
  have hle : 10 ^ 9 ≤ 10 ^ maxDigits := Nat.pow_le_pow_right (by decide) (by decide)
  simpa [isPrintableInt] using hsmall.trans_le hle

/-- The least number with too many digits is not read back. -/
theorem toYaml_too_long :
    ¬ ∃ text, ({ inputLength := 10 ^ maxDigits } : Config).toYaml = .ok text ∧
      ofSource "conf.yaml" (.ofText text) = .ok { inputLength := 10 ^ maxDigits } := by
  rintro ⟨text, htext, -⟩
  rw [toYaml_eq, if_neg] at htext
  · cases htext
  · intro h
    have := all_eq_true.1 h (10 ^ maxDigits) (by simp [integers])
    simp [isPrintableInt, Int.natAbs_pow] at this

end SymExec.Config

import SymExec.Proofs.Located

/-!
# Defects of program files

`Defective doc path v cause`: the value at the path has the defect, where types may name the structs that are
declared before them (`Declared`), and locals and blocks are those of the function that the path leads into
(`Counts`). `Mishandled doc e` lists the values that the loader makes no provision for. A failure of one or
the other kind is `Explained`.
-/
namespace SymExec

open List

namespace Ty

open Text

/-! ## Names that are not known -/

theorem length_strip_le (blank : Char → Bool) (cs : List Char) : (strip blank cs).length ≤ cs.length := by
  have hhead := (dropWhile_sublist blank (l := cs)).length_le
  have hlast := (dropWhile_sublist blank (l := (cs.dropWhile blank).reverse)).length_le
  rw [length_reverse] at hlast
  rw [strip, length_reverse]
  omega

/-- The parts of a text are no longer than the text. -/
theorem length_of_mem_splitTop {separator : Char} {cs part p : List Char} {depth : Int}
    (h : p ∈ splitTop separator cs depth part) : p.length ≤ cs.length + part.length := by
  have hle := length_strip_le isBlank part.reverse
  rw [length_reverse] at hle
  induction cs generalizing depth part with
  | nil =>
    rw [splitTop] at h
    split at h
    · cases h
    · obtain rfl := mem_singleton.1 h
      omega
  | cons c cs ih =>
    obtain ⟨inside, hstep⟩ : ∃ inside : Int, splitTop separator (c :: cs) depth part
        = if (c == separator && inside == 0) = true then
            strip isBlank part.reverse :: splitTop separator cs inside []
          else splitTop separator cs inside (c :: part) := ⟨_, rfl⟩
    rw [hstep] at h
    rw [length_cons]
    split at h
    · rcases mem_cons.1 h with rfl | h
      · omega
      · have := ih h (by simp [strip])
        rw [length_nil] at this
        omega
    · have := ih h (by simpa using length_strip_le isBlank (c :: part).reverse)
      rw [length_cons] at this
      omega

theorem length_of_after? {start : String} {cs rest : List Char} (hstart : 0 < start.toList.length)
    (h : after? start cs = some rest) : rest.length < cs.length := by
  unfold after? at h
  split at h
  · rename_i hprefix
    cases h
    have hle := length_strip_le isBlank (cs.drop start.length)
    have hlong := IsPrefix.length_le (by simpa using hprefix)
    rw [String.length_toList] at hlong hstart
    rw [length_drop] at hle
    omega
  · cases h

theorem length_of_between? {opening closing : Char} {cs inner : List Char}
    (h : between? opening closing cs = some inner) : inner.length < cs.length := by
  unfold between? at h
  split at h
  · rename_i hends
    cases h
    cases cs with
    | nil => cases hends.1
    | cons c cs =>
      rw [length_dropLast, length_drop, length_cons]
      omega
  · cases h

def ReadFault.Unknown (structs : Structs) (fault : ReadFault) : Prop :=
  ∀ s, fault = .unknown s → structs.lookup s = none

theorem fails_named (structs : Structs) (s : String) :
    Fails (ReadFault.Unknown structs) (named structs s) := by
  unfold named
  split
  · exact .ok _
  · rename_i hnone
    refine .error ?_
    rintro _ ⟨⟩
    exact hnone

theorem fails_readFrom (structs : Structs) {fuel : Nat} {cs : List Char} (hfuel : cs.length < fuel) :
    Fails (ReadFault.Unknown structs) (readFrom structs cs fuel) := by
  induction fuel generalizing cs with
  | zero => cases hfuel
  | succ fuel ih =>
    rw [readFrom]
    split
    · exact .ok _
    split
    · rename_i hrest
      have := length_of_after? (by decide) hrest
      exact .bindPure (ih (by omega))
    split
    · rename_i hrest
      have := length_of_after? (by decide) hrest
      exact .bindPure (ih (by omega))
    split
    · rename_i hrest
      have := length_of_after? (by decide) hrest
      exact .bindPure (ih (by omega))
    split
    · rename_i hrest
      have := length_of_after? (by decide) hrest
      exact .bindPure (ih (by omega))
    split
    · exact .ok _
    split
    · rename_i inner hinner
      have hlength := length_of_between? hinner
      have hpart {p : List Char} (hp : p ∈ splitTop ';' inner 0 []) : p.length < fuel := by
        have := length_of_mem_splitTop hp
        rw [length_nil] at this
        omega
      split
      · exact .error (by rintro _ ⟨⟩)
      · rename_i elem hsplit
        exact .bindPure (ih (hpart (by simp [hsplit])))
      · rename_i elem length rest hsplit
        refine .bind (ih (hpart (by simp [hsplit]))) fun t _ => ?_
        split
        · exact .pure _
        · exact .error (by rintro _ ⟨⟩)
    split
    · rename_i inner hinner
      have hlength := length_of_between? hinner
      refine .bindPure (.mapM fun p hp => ih ?_)
      have := length_of_mem_splitTop hp
      rw [length_nil] at this
      omega
    · exact fails_named structs _

theorem fails_read (structs : Structs) (s : String) :
    Fails (ReadFault.Unknown structs) (read structs s) := fails_readFrom structs (Nat.lt_succ_self _)

end Ty

namespace Loader

/-! ## What can be wrong -/

/-- The structs that a type may name: in the declaration of a struct those before it, in a function all. -/
inductive Declared (doc : Json) (path : String) : List String → Prop where
  | before {earlier later : List (String × Json)} {name : String} {raw : Json} (rest : String)
    (h : Located doc "$.structs" (.obj (earlier ++ (name, raw) :: later)))
    (hpath : path = "$.structs." ++ name ++ rest) : Declared doc path (earlier.map Prod.fst)
  | all {members : List (String × Json)} (rest : String) (h : Located doc "$.structs" (.obj members))
    (hpath : path = "$.functions" ++ rest) : Declared doc path (members.map Prod.fst)
  | none {v : Json} (rest : String) (h : Located doc "$.structs" v) (hv : v.truthy = false)
    (hpath : path = "$.functions" ++ rest) : Declared doc path []

/-- The function that a path leads into lists so many values under a key. -/
def Counts (doc : Json) (path key : String) (count : Nat) : Prop :=
  ∃ (k : Nat) (rest : String) (raw list : Json) (items : List Json),
    path = s!"$.functions[{k}]" ++ rest ∧ Located doc s!"$.functions[{k}]" raw ∧
      raw.get? key = some list ∧ list.listed? = some items ∧ items.length = count

/-- Reads functions, each of which needs a name. -/
def functionsOf (structs : Ty.Structs) (strict : Bool) (items : List Json) : Load (List Function) :=
  items.zipIdx.mapM fun (item, k) => do
    let f ← function structs strict item s!"$.functions[{k}]"
    if f.name.isName then return f else throw .crash

/-- The program that the functions of a document make up. -/
def Composes (doc : Json) (program : Program) : Prop :=
  ∃ structs items functions, readStructs doc = .ok structs ∧ doc.get? "functions" = some (.arr items) ∧
    functionsOf structs true items = .ok functions ∧ program = functions.foldl Program.add ⟨[]⟩

inductive Defective (doc : Json) (path : String) : Json → Defect → Prop where
  | notObject {v : Json} (h : ∀ members, v ≠ .obj members) : Defective doc path v .notObject
  | notList {v : Json} (h : ∀ items, v ≠ .arr items) : Defective doc path v .notList
  | structShape {v : Json} (h : ∀ entries, v.get? "fields" ≠ some (.arr entries)) :
    Defective doc path v .structShape
  | fieldShape {v : Json} (h : ∀ name t, v ≠ .arr [name, t]) : Defective doc path v .fieldShape
  | unknownTypeObject {members : List (String × Json)}
    (h : ∀ key ∈ ["tuple", "struct"], Json.lookup key members = none) :
    Defective doc path (.obj members) (.unknownTypeObject (.obj members))
  | notType {v : Json} (hobj : ∀ members, v ≠ .obj members) (hstr : ∀ s, v ≠ .str s) :
    Defective doc path v (.notType v)
  | unknownStruct {v name : Json} {names : List String} (h : v.get? "struct" = some name)
    (hdeclared : Declared doc path names) (hnew : ∀ s, name = .str s → s ∉ names) :
    Defective doc path v (.unknownType name)
  | unknownType {s name : String} {structs : Ty.Structs}
    (hdeclared : Declared doc path (structs.map Prod.fst)) (h : Ty.read structs s = .error (.unknown name))
    (hnew : name ∉ structs.map Prod.fst) : Defective doc path (.str s) (.unknownType (.str name))
  | badLength {s text : String} {structs : Ty.Structs}
    (hdeclared : Declared doc path (structs.map Prod.fst))
    (h : Ty.read structs s = .error (.badLength text)) : Defective doc path (.str s) (.badLength text)
  | notInteger {v : Json} (h : ∀ n, v ≠ .int n) : Defective doc path v (.notInteger v)
  | placeShape {v : Json} (hint : ∀ n, v ≠ .int n) (hlocal : v.get? "local" = none) :
    Defective doc path v .placeShape
  | unknownProjection {v : Json} (hderef : v ≠ .str "deref")
    (h : ∀ key ∈ ["field", "const_index", "index"], v.get? key = none) :
    Defective doc path v (.unknownProjection v)
  | localRange {n : Int} {count : Nat} (hcount : Counts doc path "locals" count)
    (h : n < 0 ∨ count ≤ n) : Defective doc path (.int n) (.localRange n count)
  | blockRange {n : Int} {count : Nat} (hcount : Counts doc path "blocks" count)
    (h : n < 0 ∨ count ≤ n) : Defective doc path (.int n) (.blockRange n count)
  | operandShape {v : Json} (h : ∀ key ∈ ["copy", "const"], v.get? key = none) :
    Defective doc path v .operandShape
  | unknownBinary {v : Json} (h : ∀ s, v = .str s → BinOp.ofName? s = none) :
    Defective doc path v (.unknownOperator v)
  | unknownUnary {v : Json} (h : ∀ s, v = .str s → UnOp.ofName? s = none) :
    Defective doc path v (.unknownOperator v)
  | rvalueShape {v : Json} (h : ∀ members, v ≠ .obj members) : Defective doc path v .rvalueShape
  | unknownRvalue {v : Json}
    (h : ∀ key ∈ ["use", "binary", "checked", "unary", "cast", "ref", "len"], v.get? key = none) :
    Defective doc path v (.unknownRvalue v)
  | unknownStatement {v : Json} (hnop : v ≠ .str "nop") (h : v.get? "assign" = none) :
    Defective doc path v (.unknownStatement v)
  | unknownTerminator {v : Json} (hwords : ∀ s ∈ ["return", "abort", "unreachable"], v ≠ .str s)
    (h : ∀ key ∈ ["goto", "switch_int", "assert", "call"], v.get? key = none) :
    Defective doc path v (.unknownTerminator v)
  | lengthsDiffer {v : Json} {values targets : List Json} (hvalues : listedUnder v "values" = .ok values)
    (htargets : listedUnder v "targets" = .ok targets) (h : values.length ≠ targets.length) :
    Defective doc path v .lengthsDiffer
  | missing {members : List (String × Json)} {key : String} (hkey : key ∈ ["name", "locals", "blocks"])
    (h : Json.lookup key members = none) : Defective doc path (.obj members) (.missing key)
  | localsShort {v : Json} {locals : List Json} {n : Int} (hlocals : listed (under v "locals") = .ok locals)
    (hcount : toInt ((v.get? "arg_count").getD (.int 0)) = .ok n)
    (h : locals = [] ∨ locals.length ≤ n) : Defective doc path v (.localsShort n)
  | blockShape {v : Json} (h : v.get? "terminator" = none) : Defective doc path v .blockShape
  | noBlocks {v : Json} (h : v.get? "blocks" = some (.arr [])) : Defective doc path v .noBlocks
  | arity {v callee : Json} {args : List Json} {expected : Int} {program : Program}
    (hcallee : v.get? "call" = some callee) (hargs : listedUnder v "args" = .ok args)
    (hprogram : Composes doc program) (hexpected : calleeArity program callee = .ok (some expected))
    (h : (args.length : Int) ≠ expected) :
    Defective doc path v (.arity callee expected args.length)

def listKeys : List String :=
  ["tuple", "projections", "values", "targets", "args", "type_args", "statements", "locals"]

/-- A value that the readers make no provision for. -/
inductive Mishandled (doc : Json) : LoadError → Prop where
  | structs {v : Json} (h : Located doc "$.structs" v) (htruthy : v.truthy)
    (hobj : ∀ members, v ≠ .obj members) : Mishandled doc .crash
  /-- A number, a truth value or `null` where values are to be listed. -/
  | unlisted {path key : String} {v list : Json} (h : Located doc path v)
    (hkey : key ∈ listKeys)
    (hget : v.get? key = some list) (hlist : list.listed? = none) : Mishandled doc .crash
  /-- A number of a field or index, or of arguments, that is no integer. -/
  | number {path key : String} {v n : Json} {e : LoadError} (h : Located doc path v)
    (hkey : key ∈ ["field", "const_index", "arg_count"]) (hget : v.get? key = some n)
    (hint : toInt n = .error e) : Mishandled doc e
  | value {path : String} {v n : Json} {values : List Json} {e : LoadError} (h : Located doc path v)
    (hvalues : listedUnder v "values" = .ok values) (hmem : n ∈ values) (hint : toInt n = .error e) :
    Mishandled doc e
  /-- A list or object as the name of a struct. -/
  | structName {path : String} {v name : Json} (h : Located doc path v)
    (hget : v.get? "struct" = some name) (hname : name.isName = false) : Mishandled doc .crash
  /-- Square brackets with nothing between them in the text of a type. -/
  | brackets {path s : String} {structs : Ty.Structs} (h : Located doc path (.str s))
    (hdeclared : Declared doc path (structs.map Prod.fst)) (hread : Ty.read structs s = .error .empty) :
    Mishandled doc .crash
  | functionName {k : Nat} {v : Json} (h : Located doc s!"$.functions[{k}]" v)
    (hname : (under v "name").isName = false) : Mishandled doc .crash
  | callee {path : String} {v callee : Json} (h : Located doc path v)
    (hget : v.get? "call" = some callee) (hstr : ∀ s, callee ≠ .str s) : Mishandled doc .crash

theorem ne_path {s rest : String} {c : Char} (hs : s.toList.head? = some c) (hc : c ≠ '$') :
    s ≠ "$" ++ rest := by
  rintro rfl
  rw [String.toList_append] at hs
  exact hc (Option.some.inj hs).symm

theorem append_ne_path {start more rest : String} {c : Char} (hstart : start.toList.head? = some c)
    (hc : c ≠ '$') : start ++ more ≠ "$" ++ rest := by
  refine ne_path (c := c) ?_ hc
  rw [String.toList_append, head?_append, hstart]
  rfl

theorem numeral_ne_path (cause : Text.NumeralError) (rest : String) : cause.message ≠ "$" ++ rest := by
  cases cause with
  | notInteger base shown =>
    change "invalid literal for int() with base " ++ toString base ++ ": " ++ _ ≠ _
    rw [String.append_assoc, String.append_assoc]
    exact append_ne_path (c := 'i') (by decide) (by decide)
  | tooLong digits | unprintable =>
    change "Exceeds the limit (" ++ toString Text.maxDigits ++ _ ++ _ ≠ _
    rw [String.append_assoc, String.append_assoc]
    exact append_ne_path (c := 'E') (by decide) (by decide)
  | notNumber shown =>
    change "could not convert string to float: " ++ shown ≠ _
    exact append_ne_path (c := 'c') (by decide) (by decide)
  | nan =>
    change "cannot convert float NaN to integer" ≠ _
    exact ne_path (c := 'c') (by decide) (by decide)
  | negativeWidth =>
    change "negative shift count" ≠ _
    exact ne_path (c := 'n') (by decide) (by decide)
  | surrogates first start count =>
    change "'utf-8' codec can't encode " ++ _ ++ ": surrogates not allowed" ≠ _
    rw [String.append_assoc]
    exact append_ne_path (c := '\'') (by decide) (by decide)

/-- An integer that cannot be read has no path. -/
theorem toInt_ne_path {v : Json} {e : LoadError} (h : toInt v = .error e) (rest : String) :
    e.message? ≠ some ("$" ++ rest) := by
  unfold toInt at h
  cases hv : v.toInt with
  | ok n =>
    rw [hv] at h
    cases h
  | error failure =>
    rw [hv] at h
    cases failure with
    | numeral cause =>
      cases h
      exact fun heq => numeral_ne_path cause rest (Option.some.inj heq)
    | _ =>
      cases h
      exact fun heq => nomatch heq

/-- Such a failure has no message that starts with a path. -/
theorem Mishandled.unnamed {doc : Json} {e : LoadError} (h : Mishandled doc e) (rest : String) :
    e.message? ≠ some ("$" ++ rest) := by
  cases h with
  | number _ _ _ hint | value _ _ _ hint => exact toInt_ne_path hint rest
  | _ => exact fun heq => nomatch heq

/-- A failure names the path of an element that has the defect, or comes from one that is mishandled. -/
inductive Explained (doc : Json) : LoadError → Prop where
  | defect {path : String} {v : Json} {cause : Defect} (h : Located doc path v)
    (hcause : Defective doc path v cause) : Explained doc (.defect path cause)
  | mishandled {e : LoadError} (h : Mishandled doc e) : Explained doc e

theorem Explained.reject {α : Type} {doc v : Json} {path : String} {cause : Defect}
    (h : Located doc path v) (hcause : Defective doc path v cause) :
    Fails (Explained doc) (reject path cause : Load α) := .error (.defect h hcause)

theorem Explained.rejectBind {α β : Type} {doc v : Json} {path : String} {cause : Defect}
    {k : α → Load β} (h : Located doc path v) (hcause : Defective doc path v cause) :
    Fails (Explained doc) (Loader.reject path cause >>= k) :=
  .bind (Explained.reject h hcause) fun _ hok => by cases hok

/-! ## Where an element is read -/

variable {doc raw : Json} {path : String} {scope : Scope}

theorem Declared.append {names : List String} (h : Declared doc path names) (more : String) :
    Declared doc (path ++ more) names := by
  cases h with
  | before rest h hpath => exact .before (rest ++ more) h (by rw [hpath, String.append_assoc])
  | all rest h hpath => exact .all (rest ++ more) h (by rw [hpath, String.append_assoc])
  | none rest h hv hpath => exact .none (rest ++ more) h hv (by rw [hpath, String.append_assoc])

theorem Counts.append {key : String} {count : Nat} (h : Counts doc path key count) (more : String) :
    Counts doc (path ++ more) key count := by
  obtain ⟨k, rest, raw, list, items, hpath, h⟩ := h
  exact ⟨k, rest ++ more, raw, list, items, by rw [hpath, String.append_assoc], h⟩

theorem item_path (path : String) (k : Nat) : s!"{path}[{k}]" = path ++ ("[" ++ toString k ++ "]") := by
  change path ++ "[" ++ toString k ++ "]" = _
  simp only [String.append_assoc]

/-- What is known to a reader inside of a function. -/
structure InFunction (doc : Json) (scope : Scope) (path : String) : Prop where
  declared : Declared doc path (scope.structs.map Prod.fst)
  locals : Counts doc path "locals" scope.numLocals
  blocks : Counts doc path "blocks" scope.numBlocks

theorem InFunction.append (h : InFunction doc scope path) (more : String) :
    InFunction doc scope (path ++ more) := ⟨h.declared.append _, h.locals.append _, h.blocks.append _⟩

theorem InFunction.item (h : InFunction doc scope path) (k : Nat) :
    InFunction doc scope s!"{path}[{k}]" := by
  rw [item_path]
  exact h.append _

end Loader
end SymExec

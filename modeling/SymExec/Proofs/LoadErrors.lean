import SymExec.Proofs.Defects

/-!
# Failures of loading

A load that fails names the path of an element of the document, and the defect that it reports is one that
this element has; or it comes upon one of a few shapes that it makes no provision for, and then names no
path. `Program.load_outcome` says that nothing else happens. There is one lemma for each reader: all its
failures are explained, given where its argument is located.
-/
namespace SymExec

open Run List

namespace Loader

variable {doc raw : Json} {path : String} {scope : Scope}
variable {k : Nat} {callee : Json} {c : Call} {strict : Bool} {key : String} {f : Function}
  {items : List Json} {structs : Ty.Structs} {members : List (String × Json)}
  {α β ε : Type} {j : Nat} {item : Json} {s : String} {xs : List α} {program : Program}
  {structs' : Ty.Structs}

/-! ## Lists and numbers -/

theorem located_listedUnder {step : String} (h : Located doc path raw)
    (hlisted : listedUnder raw key = .ok items) (hstep : "." ++ key = step)
    (hitem : items[k]? = some item) : Located doc s!"{path ++ step}[{k}]" item := by
  unfold listedUnder at hlisted
  split at hlisted
  · rename_i list hget
    unfold listed at hlisted
    split at hlisted
    · rename_i hlist
      cases hlisted
      exact (h.get? hget hstep).item hlist hitem
    · cases hlisted
  · cases hlisted
    cases hitem

theorem fails_listedUnder (h : Located doc path raw) (hkey : key ∈ listKeys) :
    Fails (Explained doc) (listedUnder raw key) := by
  unfold listedUnder
  split
  · rename_i list hget
    unfold listed
    split
    · exact .ok _
    · rename_i hlist
      exact .error (.mishandled (.unlisted h hkey hget hlist))
  · exact .ok _

/-! ## Types -/

theorem not_mem_of_lookup (h : structs.lookup s = none) : s ∉ structs.map Prod.fst := by
  rw [lookup_eq_none_iff] at h
  intro hmem
  obtain ⟨x, hx, rfl⟩ := mem_map.1 hmem
  simpa using h x hx

theorem fails_mapError {P : LoadError → Prop} {act : Except ε α} {f : ε → LoadError}
    (h : ∀ e, act = .error e → P (f e)) : Fails P (act.mapError f) := by
  cases act with
  | ok a => exact .ok a
  | error e => exact .error (h e rfl)

theorem fails_text (h : Located doc path (.str s))
    (hdeclared : Declared doc path (structs.map Prod.fst)) (fuel : Nat) :
    Fails (Explained doc) (ty structs (.str s) path (fuel + 1)) := by
  rw [ty]
  refine fails_mapError fun fault hread => ?_
  cases fault with
  | unknown name =>
    have hnew := not_mem_of_lookup (Ty.fails_read structs s _ hread name rfl)
    exact .defect h (.unknownType hdeclared hread hnew)
  | badLength text => exact .defect h (.badLength hdeclared hread)
  | empty => exact .mishandled (.brackets h hdeclared hread)

/-- Fuel is enough for a value: one for it, and two for each level below. -/
theorem fails_types (doc : Json) (structs : Ty.Structs) (fuel : Nat) :
    (∀ raw path, 2 * depth raw < fuel → Located doc path raw →
      Declared doc path (structs.map Prod.fst) → Fails (Explained doc) (ty structs raw path fuel)) ∧
    ∀ name raw path, 0 < fuel → 2 * depth raw ≤ fuel → Located doc path raw →
      Declared doc path (structs.map Prod.fst) →
      Fails (Explained doc) (struct structs name raw path fuel) := by
  induction fuel with
  | zero => exact ⟨fun _ _ h => absurd h (Nat.not_lt_zero _), fun _ _ _ h => absurd h (Nat.lt_irrefl _)⟩
  | succ fuel ih =>
    obtain ⟨ihTy, ihStruct⟩ := ih
    constructor
    · intro raw path hfuel h hdeclared
      cases raw with
      | str s => exact fails_text h hdeclared fuel
      | obj members =>
        rw [ty]
        split
        · rename_i items htuple
          have hget : (Json.obj members).get? "tuple" = some items := htuple
          have hlisted : listed items = listedUnder (.obj members) "tuple" := by rw [listedUnder, hget]
          rw [hlisted]
          refine .bind (fails_listedUnder h (by decide)) fun list hlist => .bindPure (fails_each ?_)
          intro k item hitem
          have hdepth := depth_lt_of_get? hget
          have hitemDepth : depth item ≤ depth items := by
            rw [← hlisted] at hlist
            unfold listed at hlist
            split at hlist
            · rename_i hlisted?
              cases hlist
              exact depth_le_of_listed? hlisted? (mem_of_getElem? hitem)
            · cases hlist
          refine ihTy item _ (by omega) (located_listedUnder h hlist (by decide) hitem) ?_
          rw [item_path]
          exact (hdeclared.append _).append _
        · rename_i name htuple hstruct
          have hget : (Json.obj members).get? "struct" = some name := hstruct
          have hdepth := depth_lt_of_get? hget
          split
          · exact ihStruct name _ path (by omega) (by omega) h hdeclared
          · split
            · rename_i s
              refine fails_mapError fun fault hfault => .defect h (.unknownStruct hget hdeclared ?_)
              rintro _ ⟨⟩
              unfold Ty.named at hfault
              split at hfault
              · cases hfault
              · rename_i hlookup
                exact not_mem_of_lookup hlookup
            · split
              · exact .reject h (.unknownStruct hget hdeclared (by simp_all))
              · rename_i hname
                exact .error (.mishandled (.structName h hget (by simpa using hname)))
        · rename_i htuple hstruct
          exact .reject h (.unknownTypeObject (by simp [htuple, hstruct]))
      | _ => exact .reject h (.notType (by simp) (by simp))
    · intro name raw path hpos hfuel h hdeclared
      rw [struct]
      split
      · rename_i entries hfields
        have hdepth := depth_lt_of_get? hfields
        refine .bindPure (fails_each fun k entry hentry => ?_)
        have hlist := h.get? hfields (by decide : "." ++ "fields" = ".fields")
        have hitem := hlist.item rfl hentry
        split
        · rename_i t
          refine ihTy t _ ?_ hitem.fieldType ?_
          · have hentries := depth_le_of_mem (mem_of_getElem? hentry)
            simp only [depth, depthItems] at hentries hdepth
            omega
          · rw [item_path]
            exact (hdeclared.append _).append _
        · rename_i hshape
          exact .reject hitem (.fieldShape fun name t heq => hshape name t heq)
      · rename_i hfields
        exact .reject h (.structShape fun entries heq => hfields entries heq)

theorem fails_readTy (h : Located doc path raw) (hdeclared : Declared doc path (structs.map Prod.fst)) :
    Fails (Explained doc) (readTy structs raw path) :=
  (fails_types doc structs _).1 raw path (by omega) h hdeclared

/-! ## Structs -/

theorem struct_path (name : String) : "$.structs" ++ ("." ++ name) = s!"$.structs.{name}" := by
  change _ = "$.structs." ++ name
  rw [← String.append_assoc]
  rfl

def declare (structs : Ty.Structs) (x : String × Json) : Load Ty.Structs := do
  let t ← readStruct structs x.1 x.2 s!"$.structs.{x.1}"
  return structs ++ [(x.1, t)]

theorem names_of_declare {x : String × Json} (h : declare structs x = .ok structs') :
    structs'.map Prod.fst = structs.map Prod.fst ++ [x.1] := by
  obtain ⟨t, -, h⟩ := bind_iff.1 h
  cases h
  simp

theorem names_of_foldlM (h : members.foldlM declare structs = .ok structs') :
    structs'.map Prod.fst = structs.map Prod.fst ++ members.map Prod.fst := by
  induction members generalizing structs with
  | nil =>
    cases h
    simp
  | cons x members ih =>
    obtain ⟨structs1, hx, h⟩ := bind_iff.1 h
    rw [ih h, names_of_declare hx, map_cons, append_assoc, singleton_append]

/-- Each struct is read knowing those before it. -/
theorem fails_declare {earlier later : List (String × Json)}
    (h : Located doc "$.structs" (.obj (earlier ++ later)))
    (hnames : structs.map Prod.fst = earlier.map Prod.fst) :
    Fails (Explained doc) (later.foldlM declare structs) := by
  induction later generalizing earlier structs with
  | nil => exact .pure _
  | cons x later ih =>
    have hlocated : Located doc s!"$.structs.{x.1}" x.2 := by
      rw [← struct_path]
      exact h.member (by simp)
    have hdeclared : Declared doc s!"$.structs.{x.1}" (structs.map Prod.fst) := by
      rw [hnames]
      refine .before "" h ?_
      change "$.structs." ++ x.1 = _
      simp
    refine .bind ?_ fun structs' hx => ?_
    · refine .bindPure ((fails_types doc structs _).2 _ _ _ (by omega) (by omega) hlocated hdeclared)
    · have hrest : Located doc "$.structs" (.obj (earlier ++ [x] ++ later)) := by simpa using h
      refine ih hrest ?_
      rw [names_of_declare hx, hnames, map_append]
      rfl

/-- Structs are declared by an object, by nothing that counts, or not as they should be. -/
theorem readStructs_cases (raw : Json) :
    ((under raw "structs").truthy = false ∧ readStructs raw = .ok []) ∨
    (∃ members, under raw "structs" = .obj members ∧ readStructs raw = members.foldlM declare []) ∨
    ((under raw "structs").truthy = true ∧ (∀ members, under raw "structs" ≠ .obj members) ∧
      readStructs raw = .error .crash) := by
  unfold readStructs under
  dsimp only
  generalize (raw.get? "structs").getD .null = v
  cases htruthy : v.truthy with
  | false => exact .inl ⟨rfl, rfl⟩
  | true =>
    cases v with
    | obj members => exact .inr (.inl ⟨members, rfl, rfl⟩)
    | _ => exact .inr (.inr ⟨rfl, by simp, rfl⟩)

theorem fails_readStructs (h : Located doc "$.structs" (under doc "structs")) :
    Fails (Explained doc) (readStructs doc) := by
  rcases readStructs_cases doc with ⟨-, heq⟩ | ⟨members, hobj, heq⟩ | ⟨htruthy, hobj, heq⟩
  · rw [heq]
    exact .ok _
  · rw [heq]
    have hall : Located doc "$.structs" (.obj ([] ++ members)) := hobj ▸ h
    exact fails_declare hall rfl
  · rw [heq]
    exact .error (.mishandled (.structs h htruthy hobj))

/-- Once structs are read, functions may name all of them. -/
theorem declared_of_readStructs (h : Located doc "$.structs" (under doc "structs"))
    (hread : readStructs doc = .ok structs) (rest : String) :
    Declared doc ("$.functions" ++ rest) (structs.map Prod.fst) := by
  rcases readStructs_cases doc with ⟨hfalse, heq⟩ | ⟨members, hobj, heq⟩ | ⟨-, -, heq⟩
  · obtain rfl := Except.ok.inj (heq.symm.trans hread)
    exact .none rest h hfalse rfl
  · rw [names_of_foldlM (heq.symm.trans hread)]
    exact .all rest (hobj ▸ h) rfl
  · cases heq.symm.trans hread

/-! ## Places and operands -/

theorem fails_index (h : Located doc path raw) : Fails (Explained doc) (index raw path) := by
  unfold index
  split
  · exact .ok _
  · rename_i hint
    exact .reject h (.notInteger fun n heq => hint n heq)

theorem index_eq_ok {n : Int} (h : index raw path = .ok n) : raw = .int n := by
  unfold index at h
  split at h
  · cases h
    rfl
  · cases h

theorem fails_number {n : Json} (h : Located doc path raw)
    (hkey : key ∈ ["field", "const_index", "arg_count"]) (hget : raw.get? key = some n) :
    Fails (Explained doc) (toInt n) := fun _ hint => .mishandled (.number h hkey hget hint)

theorem fails_binOp (h : Located doc path raw) : Fails (Explained doc) (binOp raw path) := by
  unfold binOp
  split
  · split
    · exact .ok _
    · rename_i hname
      refine .reject h (.unknownBinary ?_)
      rintro _ ⟨⟩
      exact hname
  · rename_i hstr
    exact .reject h (.unknownBinary fun s heq => absurd heq (hstr s))

theorem fails_unOp (h : Located doc path raw) : Fails (Explained doc) (unOp raw path) := by
  unfold unOp
  split
  · split
    · exact .ok _
    · rename_i hname
      refine .reject h (.unknownUnary ?_)
      rintro _ ⟨⟩
      exact hname
  · rename_i hstr
    exact .reject h (.unknownUnary fun s heq => absurd heq (hstr s))

section

variable (hscope : InFunction doc scope path) (h : Located doc path raw)
include hscope h

theorem fails_local : Fails (Explained doc) (local_ scope raw path) := by
  refine .bind (fails_index h) fun n hn => ?_
  obtain rfl := index_eq_ok hn
  split
  · rename_i hrange
    exact .reject h (.localRange hscope.locals (by simp at hrange; exact hrange.2))
  · exact .pure _

theorem fails_target : Fails (Explained doc) (target scope raw path) := by
  refine .bind (fails_index h) fun n hn => ?_
  obtain rfl := index_eq_ok hn
  split
  · rename_i hrange
    exact .reject h (.blockRange hscope.blocks (by simp at hrange; exact hrange.2))
  · exact .pure _

theorem fails_projection : Fails (Explained doc) (projection scope raw path) := by
  unfold projection
  split
  · exact .ok _
  · rename_i hderef
    split
    · rename_i hfield
      exact .bindPure (fails_number h (by decide) hfield)
    · rename_i hconst
      exact .bindPure (fails_number h (by decide) hconst)
    · rename_i hindex
      exact .bindPure (fails_local hscope (h.indexLocal hindex))
    · rename_i hfield hconst hindex
      exact .reject h (.unknownProjection (fun heq => hderef heq) (by simp [hfield, hconst, hindex]))

theorem fails_place : Fails (Explained doc) (place scope raw path) := by
  unfold place
  split
  · exact .bindPure (fails_local hscope h)
  · rename_i hint
    split
    · rename_i hlocal
      exact .reject h (.placeShape (fun n heq => hint n heq) hlocal)
    · rename_i base hbase
      refine .bind (fails_listedUnder h (by decide)) fun items hitems => ?_
      refine .bind (fails_each fun k item hitem => ?_) fun projections _ => ?_
      · exact fails_projection ((hscope.append _).item k)
          (located_listedUnder h hitems (by decide) hitem)
      · exact .bindPure (fails_local (hscope.append _) (h.get? hbase (by decide)))

theorem fails_operand : Fails (Explained doc) (operand scope raw path) := by
  unfold operand
  split
  · rename_i hcopy
    exact .bindPure (fails_place (hscope.append _) (h.get? hcopy (by decide)))
  · rename_i hconst
    obtain ⟨members, rfl, -⟩ := eq_obj_of_get? hconst
    exact .bindPure (fails_readTy (h.under (by decide)) (hscope.append _).declared)
  · rename_i hcopy hconst
    exact .reject h (.operandShape (by simp [hcopy, hconst]))

/-! ## Rvalues, statements and terminators -/

omit h in
theorem fails_operandAt (h : Located doc path (.obj members)) (key : String) :
    Fails (Explained doc) (operand scope (under (.obj members) key) s!"{path}.{key}") := by
  have hpath : s!"{path}.{key}" = path ++ ("." ++ key) := String.append_assoc
  rw [hpath]
  exact fails_operand (hscope.append _) (h.under rfl)

theorem fails_rvalue : Fails (Explained doc) (rvalue scope raw path) := by
  unfold rvalue
  split
  · rename_i members
    have hoperand := fails_operandAt hscope h
    dsimp only
    split
    · exact .bindPure (hoperand "use")
    split
    · refine .bind (fails_binOp (h.under (by decide))) fun op _ => ?_
      exact .bind (hoperand "lhs") fun _ _ => .bindPure (hoperand "rhs")
    split
    · refine .bind (fails_binOp (h.under (by decide))) fun op _ => ?_
      exact .bind (hoperand "lhs") fun _ _ => .bindPure (hoperand "rhs")
    split
    · exact .bind (fails_unOp (h.under (by decide))) fun op _ => .bindPure (hoperand "operand")
    split
    · refine .bind (hoperand "cast") fun source _ => ?_
      exact .bindPure (fails_readTy (h.under (by decide)) (hscope.append _).declared)
    split
    · exact .bindPure (fails_place (hscope.append _) (h.under (by decide)))
    split
    · exact .bindPure (fails_place (hscope.append _) (h.under (by decide)))
    · exact .reject h (.unknownRvalue (by simp_all [Json.get?]))
  · rename_i hobj
    exact .reject h (.rvalueShape fun members heq => hobj members heq)

theorem fails_statement : Fails (Explained doc) (statement scope raw path) := by
  unfold statement
  split
  · exact .ok _
  · rename_i hnop
    split
    · rename_i p hassign
      obtain ⟨members, rfl, -⟩ := eq_obj_of_get? hassign
      refine .bind (fails_place (hscope.append _) (h.get? hassign (by decide))) fun p _ => ?_
      exact .bindPure (fails_rvalue (hscope.append _) (h.under (by decide)))
    · rename_i hassign
      exact .reject h (.unknownStatement (fun heq => hnop heq) hassign)

theorem fails_switch {discr : Json} (hdiscr : raw.get? "switch_int" = some discr) :
    Fails (Explained doc) (switch scope raw discr path) := by
  obtain ⟨members, rfl, -⟩ := eq_obj_of_get? hdiscr
  refine .bind (fails_listedUnder h (by decide)) fun values hvalues => ?_
  refine .bind (fails_listedUnder h (by decide)) fun targets htargets => ?_
  dsimp only
  split
  · rename_i hlength
    exact .rejectBind h (.lengthsDiffer hvalues htargets hlength)
  refine .bind (fails_operand (hscope.append _) (h.get? hdiscr (by decide))) fun o _ => ?_
  refine .bind (.mapM fun n hn e hint => .mishandled (.value h hvalues hn hint)) fun ns _ => ?_
  refine .bind (fails_each fun k item hitem => ?_) fun ts _ => ?_
  · exact fails_target ((hscope.append _).item k) (located_listedUnder h htargets (by decide) hitem)
  · exact .bindPure (fails_target (hscope.append _) (h.under (by decide)))

theorem fails_assertion {cond : Json} (hcond : raw.get? "assert" = some cond) :
    Fails (Explained doc) (assertion scope raw cond path) := by
  obtain ⟨members, rfl, -⟩ := eq_obj_of_get? hcond
  refine .bind (fails_operand (hscope.append _) (h.get? hcond (by decide))) fun o _ => ?_
  exact .bindPure (fails_target (hscope.append _) (h.under (by decide)))

omit h in
theorem fails_next {args : List Operand} {dest : Option Place} (h : Located doc path (.obj members)) :
    Fails (Explained doc) (do
      let next ← match under (.obj members) "target" with
        | .null => pure none
        | t => do pure (some (← target scope t (path ++ ".target")))
      let typeArgs ← each (path ++ ".type_args") (readTy scope.structs)
        (← listedUnder (.obj members) "type_args")
      return Terminator.call ⟨callee, args, dest, next, typeArgs⟩) := by
  have htypes {next : Option Int} : Fails (Explained doc) (do
      let typeArgs ← each (path ++ ".type_args") (readTy scope.structs)
        (← listedUnder (.obj members) "type_args")
      return Terminator.call ⟨callee, args, dest, next, typeArgs⟩) := by
    refine .bind (fails_listedUnder h (by decide)) fun items hitems => .bindPure (fails_each ?_)
    intro k item hitem
    exact fails_readTy (located_listedUnder h hitems (by decide) hitem)
      ((hscope.append _).item k).declared
  dsimp only
  split
  · exact htypes
  · exact .bind (fails_target (hscope.append _) (h.under (by decide))) fun n _ => htypes

theorem fails_call (hcallee : raw.get? "call" = some callee) :
    Fails (Explained doc) (call scope raw callee path) := by
  obtain ⟨members, rfl, -⟩ := eq_obj_of_get? hcallee
  refine .bind (fails_listedUnder h (by decide)) fun items hitems => ?_
  refine .bind (fails_each fun k item hitem => ?_) fun args _ => ?_
  · exact fails_operand ((hscope.append _).item k) (located_listedUnder h hitems (by decide) hitem)
  dsimp only
  split
  · exact fails_next hscope h
  · exact .bind (fails_place (hscope.append _) (h.under (by decide))) fun p _ => fails_next hscope h

theorem fails_terminator : Fails (Explained doc) (terminator scope raw path) := by
  unfold terminator
  split
  · exact .ok _
  · exact .ok _
  · exact .ok _
  · rename_i hreturn habort hunreachable
    split
    · rename_i hgoto
      exact .bindPure (fails_target (hscope.append _) (h.get? hgoto (by decide)))
    · rename_i hswitch
      exact fails_switch hscope h hswitch
    · rename_i hassert
      exact fails_assertion hscope h hassert
    · rename_i hcall
      exact fails_call hscope h hcall
    · rename_i hgoto hswitch hassert hcall
      exact .reject h (.unknownTerminator (by simp_all) (by simp [hgoto, hswitch, hassert, hcall]))

/-! ## Functions -/

theorem fails_block : Fails (Explained doc) (block scope raw path) := by
  unfold block
  split
  · rename_i hlast
    exact .reject h (.blockShape hlast)
  · rename_i last hlast
    refine .bind (fails_listedUnder h (by decide)) fun items hitems => ?_
    refine .bind (fails_each fun k item hitem => ?_) fun statements _ => ?_
    · exact fails_statement ((hscope.append _).item k) (located_listedUnder h hitems (by decide) hitem)
    · exact .bindPure (fails_terminator (hscope.append _) (h.get? hlast (by decide)))

end

theorem get?_of_listed (h : listed (under raw key) = .ok items) :
    ∃ list, raw.get? key = some list ∧ list.listed? = some items := by
  unfold under at h
  cases hget : raw.get? key with
  | none =>
    rw [hget] at h
    cases h
  | some list =>
    rw [hget] at h
    refine ⟨list, rfl, ?_⟩
    unfold listed at h
    split at h
    · rename_i hlist
      cases h
      exact hlist
    · cases h

theorem get?_of_under (h : under raw key = .arr items) : raw.get? key = some (.arr items) := by
  unfold under at h
  cases hget : raw.get? key with
  | none =>
    rw [hget] at h
    cases h
  | some v =>
    rw [hget] at h
    exact congrArg some h

/-- A loop that never leaves early has done every item once it ends. -/
theorem of_forIn_eq_ok {f : α → β → Except ε (ForInStep β)} {b b' : β}
    (hyield : ∀ x b step, f x b = .ok step → ∃ b', step = .yield b') (h : forIn xs b f = .ok b') :
    ∀ x ∈ xs, ∃ b step, f x b = .ok step := by
  induction xs generalizing b with
  | nil => simp
  | cons x xs ih =>
    rw [forIn_cons] at h
    obtain ⟨step, hstep, h⟩ := bind_iff.1 h
    obtain ⟨b1, rfl⟩ := hyield x b step hstep
    intro y hy
    rcases mem_cons.1 hy with rfl | hy
    · exact ⟨b, _, hstep⟩
    · exact ih h y hy

theorem fails_argCount (h : Located doc path raw) :
    Fails (Explained doc) (toInt ((raw.get? "arg_count").getD (.int 0))) := by
  cases hget : raw.get? "arg_count" with
  | none => exact .ok _
  | some n => exact fails_number h (by decide) hget

theorem fails_function (hdeclared : Declared doc s!"$.functions[{k}]" (structs.map Prod.fst))
    (h : Located doc s!"$.functions[{k}]" raw) :
    Fails (Explained doc) (function structs strict raw s!"$.functions[{k}]") := by
  unfold function
  split
  case h_2 hobj => exact .reject h (.notObject fun members heq => hobj members heq)
  case h_1 members =>
    refine .bind ?_ fun _ hkeys => ?_
    · refine .forIn (fun key hkey _ => ?_) _
      split
      · rename_i hnone
        exact .rejectBind h (.missing hkey (by simpa using hnone))
      · exact .pure _
    -- the key is there by now, so `null` does not stand in for the locals
    have hlist : listed (under (.obj members) "locals") = listedUnder (.obj members) "locals" := by
      obtain ⟨_, step, hstep⟩ := of_forIn_eq_ok (fun key _ step hstep => by
        split at hstep
        · cases hstep
        · exact ⟨_, (Except.ok.inj hstep).symm⟩) hkeys "locals" (by decide)
      split at hstep
      · cases hstep
      · rename_i hsome
        obtain ⟨list, hget⟩ : ∃ list, (Json.obj members).get? "locals" = some list :=
          Option.ne_none_iff_exists'.1 (by simpa [Json.get?] using hsome)
        rw [under, listedUnder, hget]
        rfl
    refine .bind (hlist ▸ fails_listedUnder h (by decide)) fun items hitems => ?_
    refine .bind (fails_each fun j item hitem => ?_) fun locals hlocals => ?_
    · refine fails_readTy (located_listedUnder h (hlist ▸ hitems) (by decide) hitem) ?_
      rw [item_path]
      exact (hdeclared.append _).append _
    have hlength := length_each hlocals
    refine .bind (fails_argCount h) fun n hn => ?_
    dsimp only
    split
    · rename_i hshort
      refine .rejectBind h (.localsShort hitems hn ?_)
      rw [Bool.or_eq_true, List.isEmpty_iff, decide_eq_true_iff] at hshort
      rcases hshort with rfl | hshort
      · exact .inl (length_eq_zero_iff.1 hlength)
      · exact .inr (by omega)
    split
    · rename_i blocks hblocks
      have hget := get?_of_under hblocks
      obtain ⟨list, hgetLocals, hlisted⟩ := get?_of_listed hitems
      have hscope : InFunction doc ⟨structs, strict, locals.length, blocks.length⟩ s!"$.functions[{k}]" :=
        ⟨hdeclared, ⟨k, "", _, list, items, by simp, h, hgetLocals, hlisted, hlength⟩,
          ⟨k, "", _, _, blocks, by simp, h, hget, rfl, rfl⟩⟩
      refine .bind (fails_each fun j item hitem => ?_) fun bs hbs => ?_
      · exact fails_block ((hscope.append _).item j) ((h.get? hget (by decide)).item rfl hitem)
      · split
        · rename_i hempty
          refine .rejectBind h (.noBlocks ?_)
          rw [List.isEmpty_iff] at hempty
          subst hempty
          rw [hget, length_eq_zero_iff.1 (length_each hbs)]
        · exact .pure _
    · rename_i hblocks
      exact .reject (h.under (by decide)) (.notList fun items heq => hblocks items heq)

/-! ## Calls -/

theorem getElem?_of_mapM {f : α → Except ε β} {ys : List β} {y : β} (h : xs.mapM f = .ok ys)
    (hy : ys[j]? = some y) : ∃ x, xs[j]? = some x ∧ f x = .ok y := by
  have hall := Run.except_mapM_eq_ok.1 h
  clear h
  induction hall generalizing j with
  | nil => cases hy
  | @cons x y' xs ys hx _ ih =>
    cases j with
    | zero =>
      cases hy
      exact ⟨x, rfl, hx⟩
    | succ j => exact ih hy

theorem getElem?_of_each {f : Json → String → Load α} {ys : List α} {y : α}
    (h : each path f items = .ok ys) (hy : ys[j]? = some y) :
    ∃ item, items[j]? = some item ∧ f item s!"{path}[{j}]" = .ok y := by
  obtain ⟨x, hx, hread⟩ := getElem?_of_mapM h hy
  rw [getElem?_zipIdx, Option.map_eq_some_iff] at hx
  obtain ⟨item, hitem, rfl⟩ := hx
  rw [Nat.zero_add] at hread
  exact ⟨item, hitem, hread⟩

theorem call_of_terminator (h : terminator scope raw path = .ok (.call c)) :
    ∃ args, raw.get? "call" = some c.callee ∧ listedUnder raw "args" = .ok args ∧
      args.length = c.args.length := by
  rcases terminator_eq_ok h with
    ⟨⟨⟩⟩ | ⟨⟨⟩⟩ | ⟨⟨⟩⟩ | ⟨_, _, _, ⟨⟩, -⟩ | ⟨_, h⟩ | ⟨_, h⟩ | ⟨callee, hcall, h⟩
  · obtain ⟨_, _, _, _, ⟨⟩, -⟩ := switch_eq_ok h
  · obtain ⟨_, _, _, _, ⟨⟩, -⟩ := assertion_eq_ok h
  · obtain ⟨_, ⟨⟩, rfl, ⟨_, items, hitems, hargs⟩, -⟩ := call_eq_ok h
    exact ⟨items, hcall, hitems, length_each hargs⟩

theorem fails_checkCall {args : List Json} (h : Located doc path raw)
    (hprogram : Composes doc program) (hcallee : raw.get? "call" = some c.callee)
    (hargs : listedUnder raw "args" = .ok args) (hlength : args.length = c.args.length) :
    Fails (Explained doc) (checkCall program c path) := by
  refine .bind (fun e he => ?_) fun expected hexpected => ?_
  · unfold calleeArity at he
    split at he
    · cases he
    · split at he
      · cases he
      · cases he
      · rename_i hstr
        cases he
        exact .mishandled (.callee h hcallee fun s heq => hstr s heq)
  · cases expected with
    | none => exact .pure _
    | some n =>
      dsimp only
      split
      · rename_i hne
        rw [← hlength] at hne ⊢
        exact .reject h (.arity hcallee hargs hprogram hexpected hne)
      · exact .pure _

theorem terminator_path (path : String) (k : Nat) : s!"{path}.blocks[{k}].terminator"
    = path ++ ".blocks" ++ ("[" ++ toString k ++ "]") ++ ".terminator" := by
  have hopen : ".blocks[" = ".blocks" ++ "[" := by decide
  have hclose : "].terminator" = "]" ++ ".terminator" := by decide
  change path ++ ".blocks[" ++ toString k ++ "].terminator" = _
  rw [hopen, hclose]
  simp only [String.append_assoc]

theorem fails_checkCalls (h : Located doc path raw) (hprogram : Composes doc program)
    (hread : function structs strict raw path = .ok f) :
    Fails (Explained doc) (checkCalls program f path) := by
  obtain ⟨-, -, items, hitems, hblocks⟩ := function_eq_ok hread
  refine .forM fun x hx => ?_
  obtain ⟨item, hitem, hblock⟩ := getElem?_of_each hblocks (mk_mem_zipIdx_iff_getElem?.1 hx)
  obtain ⟨-, last, hlast, hterminator⟩ := block_eq_ok hblock
  have hlist := h.get? (get?_of_under hitems) (by decide : "." ++ "blocks" = ".blocks")
  have hlocated := (hlist.item rfl hitem).get? hlast (by decide : "." ++ "terminator" = ".terminator")
  dsimp only
  split
  · rename_i c hc
    rw [hc] at hterminator
    obtain ⟨args, hcallee, hargs, hlength⟩ := call_of_terminator hterminator
    rw [terminator_path, ← item_path]
    exact fails_checkCall hlocated hprogram hcallee hargs hlength
  · exact .ok _

/-! ## Programs -/

theorem function_path (k : Nat) : s!"$.functions[{k}]" = "$.functions" ++ ("[" ++ toString k ++ "]") := by
  have hopen : "$.functions[" = "$.functions" ++ "[" := by decide
  change "$.functions[" ++ toString k ++ "]" = _
  rw [hopen]
  simp only [String.append_assoc]

theorem located_function (hget : doc.get? "functions" = some (.arr items))
    (hitem : items[k]? = some item) : Located doc s!"$.functions[{k}]" item := by
  have hfunctions : Located doc "$.functions" (.arr items) :=
    Located.root.get? hget (by decide : "." ++ "functions" = ".functions")
  rw [function_path, ← item_path]
  exact hfunctions.item rfl hitem

theorem fails_functionsOf (hstructs : Located doc "$.structs" (under doc "structs"))
    (hread : readStructs doc = .ok structs) (hget : doc.get? "functions" = some (.arr items)) :
    Fails (Explained doc) (functionsOf structs strict items) := by
  refine .mapM fun x hx => ?_
  have hlocated := located_function hget (mk_mem_zipIdx_iff_getElem?.1 hx)
  have hdeclared : Declared doc s!"$.functions[{x.2}]" (structs.map Prod.fst) := by
    rw [function_path]
    exact declared_of_readStructs hstructs hread _
  refine .bind (fails_function hdeclared hlocated) fun f hf => ?_
  split
  · exact .pure _
  · rename_i hname
    rw [(function_eq_ok hf).1] at hname
    exact .error (.mishandled (.functionName hlocated (by simpa using hname)))

theorem function_of_functionsOf {functions : List Function}
    (h : functionsOf structs strict items = .ok functions) (hf : functions[k]? = some f) :
    ∃ item, items[k]? = some item ∧ function structs strict item s!"$.functions[{k}]" = .ok f := by
  obtain ⟨x, hx, hread⟩ := getElem?_of_mapM h hf
  rw [getElem?_zipIdx, Option.map_eq_some_iff] at hx
  obtain ⟨item, hitem, rfl⟩ := hx
  obtain ⟨f', hf', hname⟩ := bind_iff.1 hread
  rw [Nat.zero_add] at hf'
  split at hname
  · cases hname
    exact ⟨item, hitem, hf'⟩
  · cases hname

theorem fails_load (doc : Json) (strict : Bool) : Fails (Explained doc) (Program.load doc strict) := by
  unfold Program.load
  split
  case h_2 hobj => exact .reject .root (.notObject fun members heq => hobj members heq)
  case h_1 members =>
    have hstructs : Located (.obj members) "$.structs" (under (.obj members) "structs") :=
      Located.root.under (by decide : "." ++ "structs" = ".structs")
    refine .bind (fails_readStructs hstructs) fun structs hread => ?_
    split
    · rename_i items hget
      refine .bind (fails_functionsOf hstructs hread hget) fun functions hfunctions => ?_
      dsimp only
      split
      · rename_i hstrict
        subst hstrict
        refine .bindPure (.forM fun x hx => ?_)
        obtain ⟨item, hitem, hf⟩ := function_of_functionsOf hfunctions
          (mk_mem_zipIdx_iff_getElem?.1 hx)
        have hprogram : Composes (.obj members) (functions.foldl Program.add ⟨[]⟩) :=
          ⟨structs, items, functions, hread, hget, hfunctions, rfl⟩
        exact fails_checkCalls (located_function hget hitem) hprogram hf
      · exact .pure _
    · rename_i hget
      have hfunctions : Located (.obj members) "$.functions" (under (.obj members) "functions") :=
        Located.root.under (by decide : "." ++ "functions" = ".functions")
      exact .reject hfunctions (.notList fun items heq => hget items (get?_of_under heq))

end Loader

open Loader

/-- A load gives a program; or it fails with a message that starts with the path of an element of the
document, which has the defect that the message states; or it comes upon a value that the readers make no
provision for, and names no path. -/
theorem Program.load_outcome (doc : Json) (strict : Bool) :
    (∃ program, load doc strict = .ok program) ∨
    (∃ path rest cause v, load doc strict = .error (.defect path cause) ∧ path = "$" ++ rest ∧
      LoadError.message? (.defect path cause) = some (path ++ ": " ++ cause.message) ∧
      Located doc path v ∧ Defective doc path v cause) ∨
    ∃ e, load doc strict = .error e ∧ (∀ rest, e.message? ≠ some ("$" ++ rest)) ∧ Mishandled doc e := by
  cases h : load doc strict with
  | ok program => exact .inl ⟨program, rfl⟩
  | error e =>
    cases fails_load doc strict e h with
    | @defect path v cause hlocated hcause =>
      obtain ⟨rest, hrest⟩ := hlocated.starts
      exact .inr (.inl ⟨path, rest, cause, v, rfl, hrest, rfl, hlocated, hcause⟩)
    | mishandled hmishandled => exact .inr (.inr ⟨e, rfl, hmishandled.unnamed, hmishandled⟩)

/-- Structs in a list, and a constant index that is no number. -/
def unnamed : List Json :=
  [.obj [("structs", .arr [.int 1]), ("functions", .arr [])],
    .obj [("functions", .arr [.obj [("name", .str "f"), ("locals", .arr [.str "()"]), ("blocks", .arr [.obj
      [("statements", .arr [.obj [("assign", .obj [("local", .int 0),
        ("projections", .arr [.obj [("const_index", .str "abc")]])])]]), ("terminator", .str "return")]])]])]]

/-- Neither failure names an element. -/
theorem Program.load_outcome_unnamed : ∀ doc ∈ unnamed, ∃ e, load doc true = .error e ∧
    (∀ rest, e.message? ≠ some ("$" ++ rest)) ∧ Mishandled doc e := by
  have houtcome {doc : Json} {e : LoadError} (hload : load doc true = .error e)
      (hnamed : ∀ path cause, e ≠ .defect path cause) : ∃ e, load doc true = .error e ∧
      (∀ rest, e.message? ≠ some ("$" ++ rest)) ∧ Mishandled doc e := by
    rcases load_outcome doc true with ⟨p, h⟩ | ⟨path, _, cause, _, h, -⟩ | houtcome
    · cases hload.symm.trans h
    · exact absurd (Except.error.inj (hload.symm.trans h)) (hnamed path cause)
    · exact houtcome
  intro doc hdoc
  simp only [unnamed, mem_cons, not_mem_nil, or_false] at hdoc
  rcases hdoc with rfl | rfl
  · exact houtcome (e := .crash) rfl (by simp)
  · exact houtcome (e := .numeral (.notInteger 10 (Text.quoted "abc"))) rfl (by simp)

end SymExec

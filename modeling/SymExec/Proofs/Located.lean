import SymExec.Proofs.Loaded

/-!
# Elements of program files

`Located doc path v`: the path leads in the document to the value. A path starts at the document, `$`, and
goes to members and items. A member that is missing counts as `null`. Two kinds of element have no path of
their own: the type of a field goes by the path of its entry, and the local that a projection indexes by goes
by the path of the projection.
-/
namespace SymExec

namespace Loader

variable {v : Json} {key : String} {items : List Json} {members : List (String × Json)}

/-! ## Paths -/

/-- The path leads to the value. -/
inductive Located (doc : Json) : (path : String) → Json → Prop where
  | root : Located doc "$" doc
  | member {path key : String} {members : List (String × Json)} {v : Json}
    (h : Located doc path (.obj members)) (hmem : (key, v) ∈ members) :
    Located doc (path ++ ("." ++ key)) v
  | missing {path key : String} {members : List (String × Json)} (h : Located doc path (.obj members))
    (hnone : Json.lookup key members = none) : Located doc (path ++ ("." ++ key)) .null
  | item {path : String} {v item : Json} {items : List Json} {k : Nat} (h : Located doc path v)
    (hitems : v.listed? = some items) (hitem : items[k]? = some item) :
    Located doc s!"{path}[{k}]" item
  | fieldType {path : String} {name t : Json} (h : Located doc path (.arr [name, t])) :
    Located doc path t
  | indexLocal {path : String} {v i : Json} (h : Located doc path v) (hi : v.get? "index" = some i) :
    Located doc path i

theorem mem_of_lookup (h : Json.lookup key members = some v) : (key, v) ∈ members := by
  obtain ⟨x, hx, rfl⟩ := Option.map_eq_some_iff.1 h
  have hkey : x.1 = key := by simpa using List.find?_some hx
  rw [← hkey]
  exact List.mem_of_find?_eq_some hx

theorem eq_obj_of_get? {raw : Json} (h : raw.get? key = some v) :
    ∃ members, raw = .obj members ∧ Json.lookup key members = some v := by
  cases raw with
  | obj members => exact ⟨members, rfl, h⟩
  | _ => cases h

namespace Located

variable {doc raw v : Json} {path : String} {step : String}

theorem starts (h : Located doc path v) : ∃ rest, path = "$" ++ rest := by
  induction h with
  | root => exact ⟨"", rfl⟩
  | @member path key members v h hmem ih | @missing path key members h hnone ih =>
    obtain ⟨rest, rfl⟩ := ih
    exact ⟨rest ++ ("." ++ key), String.append_assoc⟩
  | @item path v item items k h hitems hitem ih =>
    obtain ⟨rest, rfl⟩ := ih
    refine ⟨rest ++ ("[" ++ toString k ++ "]"), ?_⟩
    change "$" ++ rest ++ "[" ++ toString k ++ "]" = _
    simp only [String.append_assoc]
  | fieldType h ih | indexLocal h hi ih => exact ih

theorem under (h : Located doc path (.obj members)) (hstep : "." ++ key = step) :
    Located doc (path ++ step) (Loader.under (.obj members) key) := by
  subst hstep
  have hget : (Json.obj members).get? key = Json.lookup key members := rfl
  rw [Loader.under, hget]
  cases hlookup : Json.lookup key members with
  | none => exact h.missing hlookup
  | some v => exact h.member (mem_of_lookup hlookup)

theorem get? (h : Located doc path raw) (hv : raw.get? key = some v) (hstep : "." ++ key = step) :
    Located doc (path ++ step) v := by
  subst hstep
  obtain ⟨members, rfl, hlookup⟩ := eq_obj_of_get? hv
  exact h.member (mem_of_lookup hlookup)

end Located

theorem fails_each {α : Type} {P : LoadError → Prop} {path : String} {f : Json → String → Load α}
    (h : ∀ (k : Nat) (item : Json), items[k]? = some item → Fails P (f item s!"{path}[{k}]")) :
    Fails P (each path f items) := by
  refine .mapM fun x hx => ?_
  exact h x.2 x.1 (List.mk_mem_zipIdx_iff_getElem?.1 hx)

/-! ## Nesting -/

theorem depth_le_of_mem (h : v ∈ items) : depth v ≤ depthItems items := by
  induction items with
  | nil => cases h
  | cons w items ih =>
    rw [depthItems]
    rcases List.mem_cons.1 h with rfl | h
    · omega
    · have := ih h
      omega

theorem depth_le_of_mem_members (h : (key, v) ∈ members) : depth v ≤ depthMembers members := by
  induction members with
  | nil => cases h
  | cons x members ih =>
    obtain ⟨k, w⟩ := x
    rw [depthMembers]
    rcases List.mem_cons.1 h with h | h
    · cases h
      omega
    · have := ih h
      omega

theorem depth_lt_of_get? {raw : Json} (h : raw.get? key = some v) : depth v < depth raw := by
  obtain ⟨members, rfl, hlookup⟩ := eq_obj_of_get? h
  have := depth_le_of_mem_members (mem_of_lookup hlookup)
  rw [depth]
  omega

theorem depth_le_of_listed? {item : Json} (h : v.listed? = some items) (hitem : item ∈ items) :
    depth item ≤ depth v := by
  cases v with
  | arr items' =>
    cases h
    have := depth_le_of_mem hitem
    rw [depth]
    omega
  | str s =>
    cases h
    obtain ⟨c, -, rfl⟩ := List.mem_map.1 hitem
    exact Nat.zero_le _
  | obj members =>
    cases h
    obtain ⟨x, -, rfl⟩ := List.mem_map.1 hitem
    exact Nat.zero_le _
  | _ => cases h

end Loader
end SymExec

import SymExec.Program.Loader
import SymExec.Proofs.Fork

/-!
# Programs that were loaded

The functions of a loaded program were read one by one, and a strict load has then checked their calls
(`Program.load_eq_ok`). What is known of an element that was read is said by one lemma for each kind
of element. The loader rejects a switch whose values and targets differ in number. So every value of
every switch of a loaded program has a target (`Program.balanced_of_load`), and every decision that a
loaded program makes is balanced (`Program.Balanced.decision`).
-/
namespace SymExec

open Run

variable {α β ε : Type} {strict : Bool} {b : Block} {xs : List α} {ys : List β}

def Terminator.Balanced : Terminator → Prop
  | switch _ values targets _ => values.length = targets.length
  | _ => True

def Function.Balanced (f : Function) : Prop := ∀ b ∈ f.blocks, b.terminator.Balanced

def Program.Balanced (p : Program) : Prop := ∀ f ∈ p.functions, f.Balanced

/-- What holds of every result of a function holds of the items that it is applied to. -/
theorem forall_of_mapM {P : β → Prop} {f : α → Except ε β} (hf : ∀ x y, f x = .ok y → P y)
    (h : xs.mapM f = .ok ys) : ∀ y ∈ ys, P y := by
  have hall := except_mapM_eq_ok.1 h
  clear h
  induction hall with
  | nil => simp
  | cons hx _ ih =>
    intro y hy
    rcases List.mem_cons.1 hy with rfl | hy
    · exact hf _ _ hx
    · exact ih y hy

theorem length_mapM {f : α → Except ε β} (h : xs.mapM f = .ok ys) :
    xs.length = ys.length := (except_mapM_eq_ok.1 h).length_eq

theorem forM_eq_ok {f : α → Except ε Unit} (h : xs.forM f = .ok ()) : ∀ x ∈ xs, f x = .ok () := by
  induction xs with
  | nil => simp
  | cons x xs ih =>
    obtain ⟨_, hx, hxs⟩ := bind_iff.1 h
    intro y hy
    rcases List.mem_cons.1 hy with rfl | hy
    · exact hx
    · exact ih hxs y hy

namespace Loader

variable {items : List Json} {structs : Ty.Structs} {t : Terminator}

theorem forall_of_each {P : α → Prop} {path : String} {f : Json → String → Load α} {ys : List α}
    (hf : ∀ x p y, f x p = .ok y → P y) (h : each path f items = .ok ys) : ∀ y ∈ ys, P y :=
  forall_of_mapM (fun _ _ hx => hf _ _ _ hx) h

theorem length_each {path : String} {f : Json → String → Load α} {ys : List α}
    (h : each path f items = .ok ys) : items.length = ys.length := by
  rw [← length_mapM h, List.length_zipIdx]

/-! ## What was read -/

section Read

variable {scope : Scope} {raw : Json} {path : String} {callee : Json}

theorem switch_eq_ok {discr : Json} (h : switch scope raw discr path = .ok t) :
    ∃ (o : Operand) (values targets : List Int) (otherwise : Int),
      t = .switch o values targets otherwise ∧ values.length = targets.length ∧
      (∃ raw path, operand scope raw path = .ok o) ∧
      (∃ path items, each path (target scope) items = .ok targets) ∧
      ∃ raw path, target scope raw path = .ok otherwise := by
  obtain ⟨values, -, h⟩ := bind_iff.1 h
  obtain ⟨targets, -, h⟩ := bind_iff.1 h
  by_cases hlength : values.length = targets.length
  · simp only [hlength, ne_eq, not_true_eq_false, if_false] at h
    obtain ⟨o, ho, h⟩ := bind_iff.1 h
    obtain ⟨ns, hns, h⟩ := bind_iff.1 h
    obtain ⟨ts, hts, h⟩ := bind_iff.1 h
    obtain ⟨n, hn, ⟨⟩⟩ := bind_iff.1 h
    refine ⟨o, ns, ts, n, rfl, ?_, ⟨_, _, ho⟩, ⟨_, _, hts⟩, _, _, hn⟩
    rw [← length_mapM hns, ← length_each hts, hlength]
  · simp only [hlength, ne_eq, not_false_eq_true, if_true] at h
    cases h

theorem assertion_eq_ok {cond : Json} (h : assertion scope raw cond path = .ok t) :
    ∃ (o : Operand) (expected : Bool) (next : Int) (message : Json),
      t = .assert o expected next message ∧ (∃ raw path, operand scope raw path = .ok o) ∧
      ∃ raw path, target scope raw path = .ok next := by
  obtain ⟨o, ho, h⟩ := bind_iff.1 h
  obtain ⟨next, hnext, ⟨⟩⟩ := bind_iff.1 h
  exact ⟨o, _, next, _, rfl, ⟨_, _, ho⟩, _, _, hnext⟩

theorem next_eq_ok {args : List Operand} {dest : Option Place} (h : (do
      let next ← match under raw "target" with
        | .null => pure none
        | t => do pure (some (← target scope t (path ++ ".target")))
      let typeArgs ← each (path ++ ".type_args") (readTy scope.structs)
        (← listedUnder raw "type_args")
      return Terminator.call ⟨callee, args, dest, next, typeArgs⟩ : Load Terminator) = .ok t) :
    ∃ next typeArgs, t = .call ⟨callee, args, dest, next, typeArgs⟩ ∧
      ∀ n ∈ next, ∃ raw path, target scope raw path = .ok n := by
  have hread {next : Option Int} (h : (do
      let typeArgs ← each (path ++ ".type_args") (readTy scope.structs)
        (← listedUnder raw "type_args")
      return Terminator.call ⟨callee, args, dest, next, typeArgs⟩ : Load Terminator) = .ok t) :
      ∃ typeArgs, t = .call ⟨callee, args, dest, next, typeArgs⟩ := by
    obtain ⟨_, -, h⟩ := bind_iff.1 h
    obtain ⟨typeArgs, -, ⟨⟩⟩ := bind_iff.1 h
    exact ⟨typeArgs, rfl⟩
  dsimp only at h
  split at h
  · obtain ⟨typeArgs, ht⟩ := hread h
    exact ⟨none, typeArgs, ht, by simp⟩
  · obtain ⟨n, hn, h⟩ := bind_iff.1 h
    obtain ⟨typeArgs, ht⟩ := hread h
    refine ⟨some n, typeArgs, ht, fun k hk => ?_⟩
    cases hk
    exact ⟨_, _, hn⟩

theorem call_eq_ok (h : call scope raw callee path = .ok t) :
    ∃ c : Call, t = .call c ∧ c.callee = callee ∧
      (∃ path items, listedUnder raw "args" = .ok items ∧
        each path (operand scope) items = .ok c.args) ∧
      (∀ p ∈ c.dest, ∃ raw path, place scope raw path = .ok p) ∧
      ∀ n ∈ c.target, ∃ raw path, target scope raw path = .ok n := by
  obtain ⟨items, hitems, h⟩ := bind_iff.1 h
  obtain ⟨args, hargs, h⟩ := bind_iff.1 h
  dsimp only at h
  split at h
  · obtain ⟨next, typeArgs, rfl, hnext⟩ := next_eq_ok h
    exact ⟨_, rfl, rfl, ⟨_, _, hitems, hargs⟩, by simp, hnext⟩
  · obtain ⟨p, hp, h⟩ := bind_iff.1 h
    obtain ⟨next, typeArgs, rfl, hnext⟩ := next_eq_ok h
    refine ⟨_, rfl, rfl, ⟨_, _, hitems, hargs⟩, fun q hq => ?_, hnext⟩
    cases hq
    exact ⟨_, _, hp⟩

/-- The ways to end a block. -/
theorem terminator_eq_ok (h : terminator scope raw path = .ok t) :
    t = .ret ∨ t = .abort ∨ t = .unreachable ∨
      (∃ n raw path, t = .goto n ∧ target scope raw path = .ok n) ∨
      (∃ discr, switch scope raw discr path = .ok t) ∨
      (∃ cond, assertion scope raw cond path = .ok t) ∨
      ∃ callee, raw.get? "call" = some callee ∧ call scope raw callee path = .ok t := by
  unfold terminator at h
  split at h
  · cases h
    exact .inl rfl
  · cases h
    exact .inr (.inl rfl)
  · cases h
    exact .inr (.inr (.inl rfl))
  · split at h
    · obtain ⟨n, hn, ⟨⟩⟩ := bind_iff.1 h
      exact .inr (.inr (.inr (.inl ⟨n, _, _, rfl, hn⟩)))
    · exact .inr (.inr (.inr (.inr (.inl ⟨_, h⟩))))
    · exact .inr (.inr (.inr (.inr (.inr (.inl ⟨_, h⟩)))))
    · exact .inr (.inr (.inr (.inr (.inr (.inr ⟨_, by assumption, h⟩)))))
    · cases h

theorem block_eq_ok (h : block scope raw path = .ok b) :
    (∃ path items, each path (statement scope) items = .ok b.statements) ∧
      ∃ last, raw.get? "terminator" = some last ∧
        terminator scope last (path ++ ".terminator") = .ok b.terminator := by
  unfold block at h
  split at h
  · cases h
  · rename_i hlast
    obtain ⟨items, -, h⟩ := bind_iff.1 h
    obtain ⟨statements, hstatements, h⟩ := bind_iff.1 h
    obtain ⟨t, ht, ⟨⟩⟩ := bind_iff.1 h
    exact ⟨⟨_, _, hstatements⟩, _, hlast, ht⟩

theorem function_eq_ok {f : Function} (h : function structs strict raw path = .ok f) :
    f.name = under raw "name" ∧ f.blocks ≠ [] ∧ ∃ items, under raw "blocks" = .arr items ∧
      each (path ++ ".blocks") (block ⟨structs, strict, f.locals.length, f.blocks.length⟩) items
        = .ok f.blocks := by
  unfold function at h
  split at h
  · obtain ⟨_, -, h⟩ := bind_iff.1 h
    obtain ⟨items, -, h⟩ := bind_iff.1 h
    obtain ⟨locals, -, h⟩ := bind_iff.1 h
    obtain ⟨argCount, -, h⟩ := bind_iff.1 h
    dsimp only at h
    split at h
    · obtain ⟨_, ⟨⟩, -⟩ := bind_iff.1 h
    · split at h
      · rename_i hitems
        obtain ⟨blocks, hblocks, h⟩ := bind_iff.1 h
        split at h
        · obtain ⟨_, ⟨⟩, -⟩ := bind_iff.1 h
        · rename_i hempty
          cases h
          rw [length_each hblocks] at hblocks
          exact ⟨rfl, by simpa using hempty, _, hitems, hblocks⟩
      · cases h
  · cases h

end Read

/-! ## Balance -/

section Balance

variable {scope : Scope} {raw : Json} {path : String}

theorem balanced_terminator (h : terminator scope raw path = .ok t) : t.Balanced := by
  rcases terminator_eq_ok h with
    rfl | rfl | rfl | ⟨n, _, _, rfl, -⟩ | ⟨discr, h⟩ | ⟨cond, h⟩ | ⟨callee, -, h⟩
  · trivial
  · trivial
  · trivial
  · trivial
  · obtain ⟨o, values, targets, otherwise, rfl, hlength, -⟩ := switch_eq_ok h
    exact hlength
  · obtain ⟨o, expected, next, message, rfl, -⟩ := assertion_eq_ok h
    trivial
  · obtain ⟨c, rfl, -⟩ := call_eq_ok h
    trivial

theorem balanced_function {f : Function} (h : function structs strict raw path = .ok f) :
    f.Balanced := by
  obtain ⟨-, -, _, -, hblocks⟩ := function_eq_ok h
  refine forall_of_each (fun _ _ b hb => ?_) hblocks
  obtain ⟨-, _, _, hterm⟩ := block_eq_ok hb
  exact balanced_terminator hterm

end Balance

end Loader

namespace Program

variable {raw : Json} {p : Program} {g : Function}

theorem mem_add {f : Function} (h : g ∈ (p.add f).functions) : g ∈ p.functions ∨ g = f := by
  unfold add at h
  split at h
  · obtain ⟨g', hg', hg⟩ := List.mem_map.1 h
    split at hg
    · exact .inr hg.symm
    · exact .inl (hg ▸ hg')
  · rcases List.mem_append.1 h with h | h
    · exact .inl h
    · exact .inr (List.mem_singleton.1 h)

theorem mem_foldl_add {fs : List Function} (h : g ∈ (fs.foldl add p).functions) :
    g ∈ p.functions ∨ g ∈ fs := by
  induction fs generalizing p with
  | nil => exact .inl h
  | cons f fs ih =>
    rcases ih h with h | h
    · rcases mem_add h with h | rfl
      · exact .inl h
      · exact .inr List.mem_cons_self
    · exact .inr (List.mem_cons_of_mem f h)

/-- The functions of a program were read one by one. A strict load has checked the calls of all of them
against the whole program. -/
theorem load_eq_ok (h : load raw strict = .ok p) :
    ∀ f ∈ p.functions, f.name.isName = true ∧
      (∃ structs raw path, Loader.function structs strict raw path = .ok f) ∧
      (strict = true → ∃ path, Loader.checkCalls p f path = .ok ()) := by
  unfold load at h
  split at h
  · obtain ⟨structs, -, h⟩ := bind_iff.1 h
    split at h
    · obtain ⟨functions, hfunctions, h⟩ := bind_iff.1 h
      have hread : ∀ f ∈ functions, f.name.isName = true ∧
          ∃ structs raw path, Loader.function structs strict raw path = .ok f := by
        refine forall_of_mapM (fun _ f hf => ?_) hfunctions
        obtain ⟨f', hf', hname⟩ := bind_iff.1 hf
        split at hname
        · rename_i hisName
          cases hname
          exact ⟨hisName, _, _, _, hf'⟩
        · cases hname
      have hadded : ∀ f ∈ (functions.foldl add ⟨[]⟩).functions, f ∈ functions := fun f hf =>
        (mem_foldl_add hf).resolve_left List.not_mem_nil
      dsimp only at h
      split at h
      · obtain ⟨_, hchecks, ⟨⟩⟩ := bind_iff.1 h
        intro f hf
        obtain ⟨hname, hfunction⟩ := hread f (hadded f hf)
        refine ⟨hname, hfunction, fun _ => ?_⟩
        obtain ⟨k, hk⟩ := List.getElem?_of_mem (hadded f hf)
        exact ⟨_, forM_eq_ok hchecks (f, k) (List.mk_mem_zipIdx_iff_getElem?.2 hk)⟩
      · rename_i hstrict
        cases h
        intro f hf
        obtain ⟨hname, hfunction⟩ := hread f (hadded f hf)
        exact ⟨hname, hfunction, fun h => absurd h hstrict⟩
    · cases h
  · cases h

theorem balanced_of_load (h : load raw strict = .ok p) : p.Balanced := fun f hf => by
  obtain ⟨-, ⟨_, _, _, hread⟩, -⟩ := load_eq_ok h f hf
  exact Loader.balanced_function hread

theorem Balanced.find? (hp : p.Balanced) {name : Json} {f : Function} (h : p.find? name = some f) :
    f.Balanced := hp f (List.mem_of_find?_eq_some h)

end Program

theorem Function.Balanced.decision {f : Frame} (hf : f.function.Balanced)
    (hb : Machine.blockOf f = .ok b) {d : Decision} (hd : d.BelongsTo b.terminator) :
    d.Balanced := by
  have hterm : b.terminator.Balanced := hf b (Machine.mem_of_blockOf hb)
  cases hcase : b.terminator with
  | switch discr values targets otherwise =>
    rw [hcase] at hd hterm
    obtain ⟨kind, rfl⟩ := hd
    exact hterm
  | assert cond expected target message =>
    rw [hcase] at hd
    cases hd
    trivial
  | _ =>
    rw [hcase] at hd
    exact hd.elim

end SymExec

import WasmEngine.Proofs.IndexMap
import WasmEngine.Proofs.Linking.Exports

/-!
# What a set of imports provides

A set is filled with single entities and with all exports of instances. Under each name it provides
the entity that was added under it last, in whatever order the exports of an instance come.
-/
namespace WasmEngine
set_option autoImplicit false

/-- Something that is added to a set. -/
inductive Addition where
  | entity (moduleName name : String) (e : Entity)
  /-- All exports of an instance. -/
  | exports (moduleName : String) (i : ModuleInstance)

/-- The entity that is added under a name. -/
def Addition.entity? (moduleName name : String) : Addition → Option Entity
  | .entity m n e => if m = moduleName ∧ n = name then some e else none
  | .exports m i => if m = moduleName then i.exported? name else none

/-- The entity that the latest of several additions under a name has added. -/
def latestAdded? (additions : List Addition) (moduleName name : String) : Option Entity :=
  additions.reverse.findSome? (·.entity? moduleName name)

/-- What a set is after some additions. An instance exports no name twice, but nothing is said of
the order in which its exports are added. -/
inductive Imports.After : List Addition → Imports → Prop
  | nothing : After [] {}
  | entity {additions : List Addition} {set : Imports} (moduleName name : String) (e : Entity)
      (h : After additions set) :
      After (additions ++ [.entity moduleName name e]) (set.add moduleName name e)
  | exports {additions : List Addition} {set : Imports} (moduleName : String) {i : ModuleInstance}
      {order : List (String × Entity)} (hnames : (i.exports.map (·.1)).Nodup)
      (horder : order.Perm i.exports) (h : After additions set) :
      After (additions ++ [.exports moduleName i])
        (set.addInstance moduleName { i with exports := order })

namespace Imports

variable (set : Imports) (moduleName moduleName' name name' : String)

theorem find?_add (e : Entity) :
    (set.add moduleName name e).find? moduleName' name' =
      if moduleName = moduleName' ∧ name = name' then some e else set.find? moduleName' name' := by
  unfold add find?
  rw [lookup_assign]
  by_cases h : moduleName = moduleName' ∧ name = name'
  · obtain ⟨rfl, rfl⟩ := h
    rw [beq_self_eq_true, if_pos rfl, if_pos ⟨rfl, rfl⟩]
  · have hne : ¬ ((moduleName', name') == (moduleName, name)) = true := fun hkey => by
      obtain ⟨rfl, rfl⟩ := Prod.mk.inj (eq_of_beq hkey)
      exact h ⟨rfl, rfl⟩
    rw [if_neg hne, if_neg h]

theorem find?_addInstance (i : ModuleInstance) (hnames : (i.exports.map (·.1)).Nodup) :
    (set.addInstance moduleName i).find? moduleName' name' =
      if moduleName = moduleName' then (i.exported? name').or (set.find? moduleName' name')
      else set.find? moduleName' name' := by
  unfold addInstance ModuleInstance.exported?
  generalize i.exports = exports at hnames ⊢
  induction exports generalizing set with
  | nil =>
    split <;> rfl
  | cons entry rest ih =>
    obtain ⟨name, e⟩ := entry
    obtain ⟨hfresh, hrest⟩ := List.nodup_cons.mp hnames
    rw [List.foldl_cons, ih _ hrest, find?_add, List.lookup_cons]
    by_cases hmodule : moduleName = moduleName'
    · rw [if_pos hmodule, if_pos hmodule]
      by_cases hname : name' = name
      · subst hname
        have hnone : rest.lookup name' = none := by
          refine Option.eq_none_iff_forall_ne_some.mpr fun e' he' => hfresh ?_
          exact List.mem_map.mpr ⟨(name', e'), (lookup_eq_some_iff_mem hrest).mp he', rfl⟩
        rw [hnone, beq_self_eq_true, if_pos ⟨hmodule, rfl⟩]
        rfl
      · rw [beq_eq_false_iff_ne.mpr hname, if_neg fun h => hname h.2.symm]
    · rw [if_neg hmodule, if_neg hmodule, if_neg fun h => hmodule h.1]

end Imports

theorem latestAdded?_append (additions : List Addition) (addition : Addition)
    (moduleName name : String) :
    latestAdded? (additions ++ [addition]) moduleName name =
      (addition.entity? moduleName name).or (latestAdded? additions moduleName name) := by
  unfold latestAdded?
  rw [List.reverse_append, List.reverse_singleton, List.singleton_append, List.findSome?_cons]
  cases addition.entity? moduleName name <;> rfl

/-- A set provides under each name what was added under it last. -/
theorem Imports.After.find?_eq {additions : List Addition} {set : Imports}
    (h : set.After additions) (moduleName name : String) :
    set.find? moduleName name = latestAdded? additions moduleName name := by
  induction h with
  | nothing => rfl
  | entity m n e _ ih =>
    rw [find?_add, latestAdded?_append, ih, Addition.entity?]
    split <;> rfl
  | @exports additions set m i order hnames horder _ ih =>
    have hnames' : (order.map (·.1)).Nodup := (horder.map (·.1)).nodup_iff.mpr hnames
    have hexported : ({ i with exports := order } : ModuleInstance).exported? name =
        i.exported? name := lookup_eq_of_perm horder hnames name
    rw [find?_addInstance _ _ _ _ { i with exports := order } hnames', latestAdded?_append, ih,
      hexported, Addition.entity?]
    split <;> rfl

section
variable {κ α : Type} [BEq κ] [LawfulBEq κ]

theorem mem_keys_assign {key k : κ} {value : α} {l : List (κ × α)} :
    k ∈ (assign key value l).map (·.1) ↔ k = key ∨ k ∈ l.map (·.1) := by
  induction l with
  | nil => simp [assign]
  | cons e rest ih =>
    rw [assign]
    split
    · next hkey =>
      rw [List.map_cons, List.map_cons, List.mem_cons, List.mem_cons, ← eq_of_beq hkey, ← or_assoc,
        or_self]
    · rw [List.map_cons, List.map_cons, List.mem_cons, List.mem_cons, ih, or_left_comm]

/-- To assign a value keeps the keys distinct. -/
theorem nodup_keys_assign {l : List (κ × α)} (h : (l.map (·.1)).Nodup) (key : κ) (value : α) :
    ((assign key value l).map (·.1)).Nodup := by
  induction l with
  | nil => exact List.pairwise_singleton _ key
  | cons e rest ih =>
    obtain ⟨hfresh, hrest⟩ := List.nodup_cons.mp h
    rw [assign]
    split
    · next hkey => exact eq_of_beq hkey ▸ h
    · next hkey =>
      refine List.nodup_cons.mpr ⟨fun hmem => ?_, ih hrest⟩
      rcases mem_keys_assign.mp hmem with hmem | hmem
      · exact hkey (beq_iff_eq.mpr hmem)
      · exact hfresh hmem

end

/-- A new instance exports no name twice, whatever the module declares. -/
theorem nodup_exports_of_allocate {s : Store} {module : Module} {entities : List Entity}
    {config : EngineConfig} {a : Allocation} (h : allocate s module entities config = .ok a) :
    (a.inst.exports.map (·.1)).Nodup := by
  obtain ⟨-, globals, tables, memories, -, -, -, rfl⟩ := allocate_eq_ok.mp h
  dsimp only [allocationOf]
  unfold Module.exportMap
  refine List.foldlRecOn module.exports _ (b := [])
    (motive := fun map : List (String × Entity) => (map.map (·.1)).Nodup) List.nodup_nil ?_
  exact fun map hmap e _ => nodup_keys_assign hmap e.name _

end WasmEngine

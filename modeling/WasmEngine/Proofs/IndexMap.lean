import Mathlib.Data.List.Induction
import Mathlib.Data.List.Nodup
import Mathlib.Data.List.Perm.Basic
import WasmEngine.IndexMap

/-!
# Lookups

If keys are distinct, a lookup in a list finds exactly the values that are there, in whatever order.
A map keyed by an index keeps its entries in order, so it is determined by its lookups.
-/
namespace WasmEngine
set_option autoImplicit false

section
variable {κ α : Type} [BEq κ] [LawfulBEq κ]

/-- If keys are distinct, a lookup finds the values that are there. -/
theorem lookup_eq_some_iff_mem {l : List (κ × α)} (hkeys : (l.map (·.1)).Nodup) {k : κ} {a : α} :
    l.lookup k = some a ↔ (k, a) ∈ l := by
  induction l with
  | nil => exact ⟨nofun, nofun⟩
  | cons e rest ih =>
    obtain ⟨k', a'⟩ := e
    obtain ⟨hfresh, hrest⟩ := List.nodup_cons.mp hkeys
    rw [List.lookup_cons, List.mem_cons]
    by_cases hk : k = k'
    · subst hk
      rw [beq_self_eq_true]
      refine ⟨fun h => .inl (congrArg (Prod.mk k) (Option.some.inj h).symm), fun h => ?_⟩
      rcases h with h | h
      · exact congrArg some (Prod.mk.inj h).2.symm
      · exact absurd (List.mem_map_of_mem h) hfresh
    · rw [beq_eq_false_iff_ne.mpr hk]
      refine (ih hrest).trans ⟨.inr, fun h => h.resolve_left fun h => hk (Prod.mk.inj h).1⟩

/-- So it does not depend on the order of the list. -/
theorem lookup_eq_of_perm {l l' : List (κ × α)} (h : l.Perm l') (hkeys : (l'.map (·.1)).Nodup)
    (k : κ) : l.lookup k = l'.lookup k := by
  have hkeys' : (l.map (·.1)).Nodup := (h.map (·.1)).nodup_iff.mpr hkeys
  ext a
  rw [lookup_eq_some_iff_mem hkeys', lookup_eq_some_iff_mem hkeys, h.mem_iff]

end

namespace IndexMap

variable {α : Type}

theorem lookup_place (i : Nat) (a : α) (j : Nat) (l : List (Nat × α)) :
    (place i a l).lookup j = if j = i then some a else l.lookup j := by
  induction l with
  | nil =>
    rw [place, List.lookup_cons]
    by_cases hj : j = i
    · rw [beq_iff_eq.mpr hj, if_pos hj]
    · rw [beq_eq_false_iff_ne.mpr hj, if_neg hj]
  | cons e rest ih =>
    obtain ⟨k, b⟩ := e
    rw [place]
    by_cases hj : j = i
    · subst hj
      rw [if_pos rfl]
      split
      · rw [List.lookup_cons_self]
      split
      · rw [List.lookup_cons_self]
      · next hne => rw [List.lookup_cons, beq_eq_false_iff_ne.mpr hne, ih, if_pos rfl]
    · rw [if_neg hj] at ih ⊢
      split
      · rw [List.lookup_cons, beq_eq_false_iff_ne.mpr hj]
      split
      · next heq =>
        subst heq
        rw [List.lookup_cons, List.lookup_cons, beq_eq_false_iff_ne.mpr hj]
      · rw [List.lookup_cons, List.lookup_cons, ih]

theorem get?_insert (m : IndexMap α) (i : Nat) (a : α) (j : Nat) :
    (m.insert i a).get? j = if j = i then some a else m.get? j :=
  lookup_place i a j m.entries

/-- The last entry of an index counts. -/
theorem get?_ofList (l : List (Nat × α)) (i : Nat) : (ofList l).get? i = l.reverse.lookup i := by
  induction l using List.reverseRecOn with
  | nil => rfl
  | append_singleton l e ih =>
    have hlast : ofList (l ++ [e]) = (ofList l).insert e.1 e.2 := by
      unfold ofList
      rw [List.foldl_append, List.foldl_cons, List.foldl_nil]
    rw [hlast, get?_insert, ih, List.reverse_append, List.reverse_singleton,
      List.singleton_append, List.lookup_cons]
    by_cases hi : i = e.1
    · rw [if_pos hi, beq_iff_eq.mpr hi]
    · rw [if_neg hi, beq_eq_false_iff_ne.mpr hi]

theorem nodup_keys (m : IndexMap α) : (m.entries.map (·.1)).Nodup := by
  rw [List.nodup_iff_pairwise_ne, List.pairwise_map]
  exact m.sorted.imp fun h => Nat.ne_of_lt h

/-- A map is determined by what a lookup finds. -/
theorem ext_get? {m m' : IndexMap α} (h : ∀ i, m.get? i = m'.get? i) : m = m' := by
  have hperm : m.entries.Perm m'.entries := by
    refine (List.perm_ext_iff_of_nodup (.of_map _ m.nodup_keys) (.of_map _ m'.nodup_keys)).mpr ?_
    rintro ⟨i, a⟩
    rw [← lookup_eq_some_iff_mem m.nodup_keys, ← lookup_eq_some_iff_mem m'.nodup_keys]
    exact Eq.to_iff (congrArg (· = some a) (h i))
  have hentries : m.entries = m'.entries :=
    hperm.eq_of_pairwise (fun _ _ _ _ hab hba => absurd hab (Nat.lt_asymm hba)) m.sorted m'.sorted
  cases m
  cases m'
  cases hentries
  rfl

/-- To insert all entries of a map gives it back. -/
theorem ofList_entries (m : IndexMap α) : ofList m.entries = m := by
  refine ext_get? fun i => ?_
  rw [get?_ofList]
  exact lookup_eq_of_perm (List.reverse_perm _) m.nodup_keys i

end IndexMap

end WasmEngine

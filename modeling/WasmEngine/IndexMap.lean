/-!
# Maps keyed by an index

A finite map from natural numbers, kept as a list in strictly increasing order of the keys. Equal
maps are equal lists, and an insertion replaces an earlier entry of the same index.
-/
namespace WasmEngine
set_option autoImplicit false

/-- A map from indices, ordered by index. -/
structure IndexMap (α : Type) where
  entries : List (Nat × α)
  sorted : entries.Pairwise (fun a b => a.1 < b.1)
  deriving DecidableEq

namespace IndexMap

variable {α : Type}

def empty : IndexMap α := ⟨[], .nil⟩

instance : Inhabited (IndexMap α) := ⟨empty⟩

instance : EmptyCollection (IndexMap α) := ⟨empty⟩

/-- Puts an entry at its place in an ordered list, replacing one of the same index. -/
def place (i : Nat) (a : α) : List (Nat × α) → List (Nat × α)
  | [] => [(i, a)]
  | (j, b) :: rest =>
    if i < j then (i, a) :: (j, b) :: rest
    else if i = j then (i, a) :: rest
    else (j, b) :: place i a rest

theorem mem_place {i : Nat} {a : α} {e : Nat × α} :
    ∀ {l : List (Nat × α)}, e ∈ place i a l → e = (i, a) ∨ e ∈ l
  | [], h => by simpa [place] using h
  | (j, b) :: rest, h => by
    unfold place at h
    split at h
    · rcases List.mem_cons.1 h with h | h
      · exact .inl h
      · exact .inr h
    · split at h
      · rcases List.mem_cons.1 h with h | h
        · exact .inl h
        · exact .inr (List.mem_cons_of_mem _ h)
      · rcases List.mem_cons.1 h with h | h
        · exact .inr (h ▸ List.mem_cons_self)
        · rcases mem_place h with h | h
          · exact .inl h
          · exact .inr (List.mem_cons_of_mem _ h)

theorem sorted_place (i : Nat) (a : α) :
    ∀ {l : List (Nat × α)}, l.Pairwise (fun a b => a.1 < b.1) →
      (place i a l).Pairwise (fun a b => a.1 < b.1)
  | [], _ => List.pairwise_singleton _ _
  | (j, b) :: rest, h => by
    have ⟨hj, hr⟩ := List.pairwise_cons.1 h
    unfold place
    split
    · rename_i hij
      refine List.pairwise_cons.2 ⟨fun e he => ?_, h⟩
      rcases List.mem_cons.1 he with rfl | he
      · exact hij
      · exact Nat.lt_trans hij (hj e he)
    · split
      · rename_i hij
        exact List.pairwise_cons.2 ⟨fun e he => hij ▸ hj e he, hr⟩
      · refine List.pairwise_cons.2 ⟨fun e he => ?_, sorted_place i a hr⟩
        rcases mem_place he with rfl | he
        · show j < i
          omega
        · exact hj e he

def insert (m : IndexMap α) (i : Nat) (a : α) : IndexMap α :=
  ⟨place i a m.entries, sorted_place i a m.sorted⟩

/-- The map of the entries, a later entry replacing an earlier one of the same index. -/
def ofList (l : List (Nat × α)) : IndexMap α :=
  l.foldl (fun m e => m.insert e.1 e.2) empty

def get? (m : IndexMap α) (i : Nat) : Option α := m.entries.lookup i

def toList (m : IndexMap α) : List (Nat × α) := m.entries

end IndexMap

end WasmEngine

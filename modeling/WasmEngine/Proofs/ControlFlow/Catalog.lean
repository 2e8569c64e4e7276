import WasmEngine.ControlFlow.Catalog

/-!
# The graphs that a catalog gives out

A request is answered with the object that the module gave out before, or with a new one that the
module gives out from then on. So it is enough to know which objects each module gives out after an
operation: those of before, except that a request adds its own and that a copied or an assigned
module starts without any. Two facts are kept by all of them: an object that is given out was built
from the code that the module holds, and no object is given out for two functions.
-/
namespace WasmEngine
set_option autoImplicit false

namespace Module

variable {m : Module} {function function' : Nat} {code : Code}

/-- The place in the code section of a function that the module defines. -/
def codeIndex (m : Module) (function : Nat) : Nat := function - m.importCount .function

theorem code?_eq_some_iff : m.code? function = some code ↔ m.importCount .function ≤ function ∧
    ∃ f, m.functions[m.codeIndex function]? = some f ∧ f.code = code := by
  unfold code? codeIndex
  split
  · simp only [reduceCtorEq, false_iff]
    omega
  · rw [Option.map_eq_some_iff]
    exact ⟨fun h => ⟨by omega, h⟩, And.right⟩

/-- The two ways of counting functions agree where the module defines them. -/
theorem codeIndex_injective {code' : Code} (h : m.code? function = some code)
    (h' : m.code? function' = some code')
    (he : m.codeIndex function = m.codeIndex function') : function = function' := by
  have hle := (code?_eq_some_iff.mp h).1
  have hle' := (code?_eq_some_iff.mp h').1
  unfold codeIndex at he
  omega

end Module

namespace Catalog

variable {c c' : Catalog} {position position' function index index' target source : Nat}
  {m m' : Module} {code : Code} {id id' : GraphId}

/-- The modules of a catalog, without what they remember. -/
def family (c : Catalog) : List Module := c.modules.map (·.module)

theorem family_eq_some_iff :
    c.family[position]? = some m ↔ ∃ cached, c.modules[position]? = some ⟨m, cached⟩ := by
  unfold family
  rw [List.getElem?_map, Option.map_eq_some_iff]
  constructor
  · rintro ⟨⟨m', cached⟩, h, rfl⟩
    exact ⟨cached, h⟩
  · rintro ⟨cached, h⟩
    exact ⟨_, h, rfl⟩

/-- The module at a position gives out an object for a place in its code section. -/
def Gives (c : Catalog) (position : Nat) (m : Module) (index : Nat) (id : GraphId) : Prop :=
  ∃ cached, c.modules[position]? = some ⟨m, cached⟩ ∧ cached.lookup index = some id

theorem Gives.family (h : c.Gives position m index id) : c.family[position]? = some m := by
  obtain ⟨cached, hm, -⟩ := h
  exact family_eq_some_iff.mpr ⟨cached, hm⟩

/-- A catalog in which a module gives out a new object. -/
def remember (c : Catalog) (position : Nat) (entry : CachingModule) (code : Code) : Catalog where
  modules := c.modules.set position entry
  graphs := c.graphs ++ [Graph.build code]

section
variable {cached : List (Nat × GraphId)}

theorem graph?_of_lookup (hm : c.modules[position]? = some ⟨m, cached⟩)
    (hcode : m.code? function = some code)
    (hlookup : cached.lookup (m.codeIndex function) = some id) :
    c.graph? position function = some (id, c) := by
  have hindex : cached.lookup (function - m.importCount .function) = some id := hlookup
  simp only [graph?, hm, hcode, hindex, Option.bind_eq_bind, Option.bind_some, Option.pure_def]

theorem graph?_of_lookup_none (hm : c.modules[position]? = some ⟨m, cached⟩)
    (hcode : m.code? function = some code)
    (hlookup : cached.lookup (m.codeIndex function) = none) :
    c.graph? position function = some (c.graphs.length,
      c.remember position ⟨m, (m.codeIndex function, c.graphs.length) :: cached⟩ code) := by
  have hindex : cached.lookup (function - m.importCount .function) = none := hlookup
  simp only [graph?, hm, hcode, hindex, Option.bind_eq_bind, Option.bind_some, Option.pure_def]
  rfl

end

/-- A request is answered with the object that the module gives out, or with a new one. -/
theorem graph?_eq_some_iff : c.graph? position function = some (id, c') ↔
    ∃ m cached code, c.modules[position]? = some ⟨m, cached⟩ ∧ m.code? function = some code ∧
      (cached.lookup (m.codeIndex function) = some id ∧ c' = c ∨
        cached.lookup (m.codeIndex function) = none ∧ id = c.graphs.length ∧
          c' = c.remember position ⟨m, (m.codeIndex function, id) :: cached⟩ code) := by
  constructor
  · intro h
    obtain ⟨⟨m, cached⟩, hm, hrest⟩ := Option.bind_eq_some_iff.mp h
    obtain ⟨code, hcode, -⟩ := Option.bind_eq_some_iff.mp hrest
    refine ⟨m, cached, code, hm, hcode, ?_⟩
    cases hlookup : cached.lookup (m.codeIndex function) with
    | none =>
      rw [graph?_of_lookup_none hm hcode hlookup] at h
      obtain ⟨rfl, rfl⟩ := Prod.mk.inj (Option.some.inj h)
      exact .inr ⟨rfl, rfl, rfl⟩
    | some old =>
      rw [graph?_of_lookup hm hcode hlookup] at h
      obtain ⟨rfl, rfl⟩ := Prod.mk.inj (Option.some.inj h)
      exact .inl ⟨rfl, rfl⟩
  · rintro ⟨m, cached, code, hm, hcode, ⟨hlookup, rfl⟩ | ⟨hlookup, rfl, rfl⟩⟩
    · exact graph?_of_lookup hm hcode hlookup
    · exact graph?_of_lookup_none hm hcode hlookup

/-- The functions that a module defines are the ones whose graphs can be requested. -/
theorem exists_graph? (hm : c.family[position]? = some m) (hcode : m.code? function = some code) :
    ∃ id c', c.graph? position function = some (id, c') := by
  obtain ⟨cached, hm⟩ := family_eq_some_iff.mp hm
  cases hlookup : cached.lookup (m.codeIndex function) with
  | none => exact ⟨_, _, graph?_of_lookup_none hm hcode hlookup⟩
  | some id => exact ⟨id, c, graph?_of_lookup hm hcode hlookup⟩

theorem code?_of_graph? (h : c.graph? position function = some (id, c')) :
    ∃ m code, c.family[position]? = some m ∧ m.code? function = some code := by
  obtain ⟨m, cached, code, hm, hcode, -⟩ := graph?_eq_some_iff.mp h
  exact ⟨m, code, family_eq_some_iff.mpr ⟨cached, hm⟩, hcode⟩

/-- An object that a module gives out is the answer to a request, which changes nothing. -/
theorem Gives.graph?_eq (h : c.Gives position m (m.codeIndex function) id)
    (hcode : m.code? function = some code) : c.graph? position function = some (id, c) := by
  obtain ⟨cached, hm, hlookup⟩ := h
  exact graph?_of_lookup hm hcode hlookup

/-! ### The modules after an operation -/

@[simp] theorem family_add (c : Catalog) (m : Module) : (c.add m).family = c.family ++ [m] := by
  simp [family, add]

@[simp] theorem family_copy (c : Catalog) (source : Nat) :
    (c.copy source).family = c.family ++ (c.family[source]?).toList := by
  unfold copy
  cases h : c.modules[source]? with
  | none => simp [family, h]
  | some entry =>
    dsimp only
    rw [family_add]
    simp [family, h]

@[simp] theorem family_assign (c : Catalog) (target source : Nat) :
    (c.assign target source).family =
      ((c.family[source]?).map (c.family.set target)).getD c.family := by
  unfold assign
  cases h : c.modules[source]? with
  | none => simp [family, h]
  | some entry => simp [family, h, List.map_set]

theorem family_graph? (h : c.graph? position function = some (id, c')) :
    c'.family = c.family := by
  obtain ⟨m, cached, code, hm, -, ⟨-, rfl⟩ | ⟨-, -, rfl⟩⟩ := graph?_eq_some_iff.mp h
  · rfl
  · -- The entry that is replaced holds the same module.
    apply List.ext_getElem?
    intro k
    unfold family remember
    rw [List.map_set, List.getElem?_set]
    split
    · next he =>
      subst he
      rw [List.getElem?_map, hm, if_pos]
      · rfl
      · rw [List.length_map]
        exact (List.getElem?_eq_some_iff.mp hm).1
    · rfl

/-! ### The objects that are given out after an operation -/

theorem gives_iff {cached : List (Nat × GraphId)} (h : c.modules[position]? = some ⟨m, cached⟩) :
    c.Gives position m' index id ↔ m' = m ∧ cached.lookup index = some id := by
  unfold Gives
  rw [h]
  constructor
  · rintro ⟨_, ⟨⟩, hlookup⟩
    exact ⟨rfl, hlookup⟩
  · rintro ⟨rfl, hlookup⟩
    exact ⟨cached, rfl, hlookup⟩

theorem gives_congr (h : c'.modules[position]? = c.modules[position]?) :
    c'.Gives position m index id ↔ c.Gives position m index id := by
  unfold Gives
  rw [h]

/-- A module that remembers nothing gives out nothing. -/
theorem not_gives_fresh (h : c.modules[position]? = some { module := m }) :
    ¬ c.Gives position m' index id := by
  rw [gives_iff h]
  rintro ⟨-, ⟨⟩⟩

/-- A new module gives out nothing. -/
theorem gives_add : (c.add m').Gives position m index id ↔ c.Gives position m index id := by
  rcases Nat.lt_trichotomy position c.modules.length with hlt | rfl | hlt
  · exact gives_congr (List.getElem?_append_left hlt)
  · refine iff_of_false (not_gives_fresh (m := m') ?_) ?_
    · show (c.modules ++ [_])[c.modules.length]? = _
      rw [List.getElem?_append_right (Nat.le_refl _), Nat.sub_self, List.getElem?_cons_zero]
    · rintro ⟨cached, hm, -⟩
      exact absurd (List.getElem?_eq_some_iff.mp hm).1 (Nat.lt_irrefl _)
  · refine gives_congr ?_
    show (c.modules ++ [_])[position]? = _
    rw [List.getElem?_append_right (Nat.le_of_lt hlt), List.getElem?_eq_none (Nat.le_of_lt hlt)]
    exact List.getElem?_eq_none (by rw [List.length_singleton]; omega)

theorem gives_copy :
    (c.copy source).Gives position m index id ↔ c.Gives position m index id := by
  unfold copy
  split
  · exact gives_add
  · rfl

/-- The assigned module gives out nothing any more, the others what they gave out before. -/
theorem gives_assign : (c.assign target source).Gives position m index id ↔
    c.Gives position m index id ∧ (position = target → c.family[source]? = none) := by
  unfold assign
  cases h : c.modules[source]? with
  | none =>
    have hnone : c.family[source]? = none := by rw [family, List.getElem?_map, h]; rfl
    exact (and_iff_left fun _ => hnone).symm
  | some entry =>
    have hsome : c.family[source]? = some entry.module := by
      rw [family, List.getElem?_map, h]; rfl
    by_cases hp : position = target
    · subst hp
      refine iff_of_false ?_ fun hg => nomatch hsome.symm.trans (hg.2 rfl)
      rintro ⟨cached, hm, hlookup⟩
      have hlt : position < c.modules.length := by
        simpa using (List.getElem?_eq_some_iff.mp hm).1
      exact not_gives_fresh (List.getElem?_set_self hlt) ⟨cached, hm, hlookup⟩
    · rw [gives_congr (List.getElem?_set_ne (Ne.symm hp))]
      exact (and_iff_left fun he => absurd he hp).symm

/-- A request makes the module give out the object it is answered with. -/
theorem gives_graph? (h : c.graph? position function = some (id, c'))
    (hm : c.family[position]? = some m) : c'.Gives position' m' index' id' ↔
      c.Gives position' m' index' id' ∨
        position' = position ∧ m' = m ∧ index' = m.codeIndex function ∧ id' = id := by
  obtain ⟨m, cached, code, hentry, hcode, hc⟩ := graph?_eq_some_iff.mp h
  obtain rfl := Option.some.inj (hm.symm.trans (family_eq_some_iff.mpr ⟨cached, hentry⟩))
  rcases hc with ⟨hlookup, rfl⟩ | ⟨hlookup, -, rfl⟩
  · refine (or_iff_left_of_imp ?_).symm
    rintro ⟨rfl, rfl, rfl, rfl⟩
    exact ⟨cached, hentry, hlookup⟩
  by_cases hp : position' = position
  · subst hp
    have hlt := (List.getElem?_eq_some_iff.mp hentry).1
    rw [gives_iff (List.getElem?_set_self hlt), gives_iff hentry, List.lookup_cons]
    by_cases hi : index' = m.codeIndex function
    · subst hi
      simp [hlookup, eq_comm]
    · rw [beq_eq_false_iff_ne.mpr hi]
      simp [hi]
  · rw [gives_congr (List.getElem?_set_ne (Ne.symm hp))]
    exact (or_iff_left fun he => hp he.1).symm

/-! ### The objects -/

@[simp] theorem graphs_copy (c : Catalog) (source : Nat) : (c.copy source).graphs = c.graphs := by
  unfold copy
  split <;> rfl

@[simp] theorem graphs_assign (c : Catalog) (target source : Nat) :
    (c.assign target source).graphs = c.graphs := by
  unfold assign
  split <;> rfl

/-- A request builds no object, if the module gives one out already, or the one that it is answered
with. -/
theorem graphs_graph? (h : c.graph? position function = some (id, c')) :
    ∃ m code, c.family[position]? = some m ∧ m.code? function = some code ∧
      (c.Gives position m (m.codeIndex function) id ∧ c'.graphs = c.graphs ∨
        id = c.graphs.length ∧ c'.graphs = c.graphs ++ [Graph.build code]) := by
  obtain ⟨m, cached, code, hm, hcode, hc⟩ := graph?_eq_some_iff.mp h
  refine ⟨m, code, family_eq_some_iff.mpr ⟨cached, hm⟩, hcode, ?_⟩
  rcases hc with ⟨hlookup, rfl⟩ | ⟨-, hid, rfl⟩
  · exact .inl ⟨⟨cached, hm, hlookup⟩, rfl⟩
  · exact .inr ⟨hid, rfl⟩

/-- An object is built once and for all. -/
theorem graphs_kept {g : Graph} (h : c.graph? position function = some (id, c'))
    (hg : c.graphs[id']? = some g) : c'.graphs[id']? = some g := by
  obtain ⟨m, code, -, -, ⟨-, he⟩ | ⟨-, he⟩⟩ := graphs_graph? h
  · rwa [he]
  · rwa [he, List.getElem?_append_left (List.getElem?_eq_some_iff.mp hg).1]

/-- What holds of the objects that are given out: each was built from the code that the module holds
at that place, and is given out at this place alone. -/
structure Valid (c : Catalog) : Prop where
  current : ∀ {position : Nat} {m : Module} {index : Nat} {id : GraphId},
    c.Gives position m index id →
      ∃ f, m.functions[index]? = some f ∧ c.graphs[id]? = some (Graph.build f.code)
  separate : ∀ {position position' : Nat} {m m' : Module} {index index' : Nat} {id : GraphId},
    c.Gives position m index id → c.Gives position' m' index' id →
      position = position' ∧ index = index'

namespace Valid

theorem lt_length (hc : c.Valid) (h : c.Gives position m index id) : id < c.graphs.length := by
  obtain ⟨f, -, hg⟩ := hc.current h
  exact (List.getElem?_eq_some_iff.mp hg).1

/-- Fewer objects given out, from the same ones. -/
theorem of_gives (hc : c.Valid) (hg : c'.graphs = c.graphs)
    (h : ∀ {position m index id}, c'.Gives position m index id → c.Gives position m index id) :
    c'.Valid where
  current hgives := hg ▸ hc.current (h hgives)
  separate hgives hgives' := hc.separate (h hgives) (h hgives')

theorem copy (hc : c.Valid) (source : Nat) : (c.copy source).Valid :=
  hc.of_gives (graphs_copy ..) gives_copy.mp

theorem assign (hc : c.Valid) (target source : Nat) : (c.assign target source).Valid :=
  hc.of_gives (graphs_assign ..) fun h => (gives_assign.mp h).1

/-- The object that answers a request was built from the code that the module holds. -/
theorem graph_of_graph? (hc : c.Valid) (h : c.graph? position function = some (id, c'))
    (hm : c.family[position]? = some m) (hcode : m.code? function = some code) :
    c'.graphs[id]? = some (Graph.build code) := by
  obtain ⟨m', code', hm', hcode', hg⟩ := graphs_graph? h
  obtain rfl := Option.some.inj (hm.symm.trans hm')
  obtain rfl := Option.some.inj (hcode.symm.trans hcode')
  rcases hg with ⟨hgives, he⟩ | ⟨rfl, he⟩
  · obtain ⟨f, hf, hbuilt⟩ := hc.current hgives
    obtain ⟨-, f', hf', rfl⟩ := Module.code?_eq_some_iff.mp hcode
    obtain rfl := Option.some.inj (hf.symm.trans hf')
    rw [he, hbuilt]
  · rw [he, List.getElem?_append_right (Nat.le_refl _), Nat.sub_self, List.getElem?_cons_zero]

theorem graph? (hc : c.Valid) (h : c.graph? position function = some (id, c')) : c'.Valid := by
  obtain ⟨m, code, hm, hcode, hnew⟩ := graphs_graph? h
  have hbuilt := hc.graph_of_graph? h hm hcode
  have hgives : ∀ {p m' i j}, c'.Gives p m' i j ↔
      c.Gives p m' i j ∨ p = position ∧ m' = m ∧ i = m.codeIndex function ∧ j = id :=
    gives_graph? h hm
  -- The object of the answer is the module's own already, or nobody gives it out yet.
  have hown : ∀ {p m' i}, c.Gives p m' i id → p = position ∧ i = m.codeIndex function := by
    intro p m' i hg
    rcases hnew with ⟨hg', -⟩ | ⟨rfl, -⟩
    · exact hc.separate hg hg'
    · exact absurd (hc.lt_length hg) (Nat.lt_irrefl _)
  constructor
  · intro p m' i j hg
    obtain hg | ⟨rfl, rfl, rfl, rfl⟩ := hgives.mp hg
    · obtain ⟨f, hf, hgraph⟩ := hc.current hg
      exact ⟨f, hf, graphs_kept h hgraph⟩
    · obtain ⟨-, f, hf, rfl⟩ := Module.code?_eq_some_iff.mp hcode
      exact ⟨f, hf, hbuilt⟩
  · intro p p' m₁ m₂ i i' j hg hg'
    obtain hg | ⟨rfl, rfl, rfl, rfl⟩ := hgives.mp hg
    · obtain hg' | ⟨rfl, rfl, rfl, rfl⟩ := hgives.mp hg'
      · exact hc.separate hg hg'
      · exact hown hg
    · obtain hg' | ⟨rfl, -, rfl, -⟩ := hgives.mp hg'
      · exact ⟨(hown hg').1.symm, (hown hg').2.symm⟩
      · exact ⟨rfl, rfl⟩

end Valid

/-- An object that nobody but the module at a position gives out, and for one place only. -/
structure Belongs (c : Catalog) (id : GraphId) (position : Nat) (m : Module) (index : Nat) :
    Prop where
  built : id < c.graphs.length
  only : ∀ {position' : Nat} {m' : Module} {index' : Nat},
    c.Gives position' m' index' id → position' = position ∧ m' = m ∧ index' = index

namespace Belongs

theorem of_gives (hb : c.Belongs id position m index) (hg : c'.graphs = c.graphs)
    (h : ∀ {position m index id}, c'.Gives position m index id → c.Gives position m index id) :
    c'.Belongs id position m index where
  built := hg ▸ hb.built
  only hgives := hb.only (h hgives)

theorem copy (hb : c.Belongs id position m index) (source : Nat) :
    (c.copy source).Belongs id position m index :=
  hb.of_gives (graphs_copy ..) gives_copy.mp

theorem assign (hb : c.Belongs id position m index) (target source : Nat) :
    (c.assign target source).Belongs id position m index :=
  hb.of_gives (graphs_assign ..) fun h => (gives_assign.mp h).1

/-- A request is never answered with somebody else's object. -/
theorem graph? (hb : c.Belongs id position m index)
    (h : c.graph? position' function = some (id', c')) : c'.Belongs id position m index := by
  obtain ⟨m', code, hm, -, hnew⟩ := graphs_graph? h
  constructor
  · have hb := List.getElem?_eq_getElem hb.built
    exact (List.getElem?_eq_some_iff.mp (graphs_kept h hb)).1
  · intro p m₁ i hg
    obtain hg | ⟨rfl, rfl, rfl, rfl⟩ := (gives_graph? h hm).mp hg
    · exact hb.only hg
    · rcases hnew with ⟨hg', -⟩ | ⟨rfl, -⟩
      · exact hb.only hg'
      · exact absurd hb.built (Nat.lt_irrefl _)

end Belongs

theorem Valid.belongs (hc : c.Valid) (h : c.Gives position m index id) :
    c.Belongs id position m index where
  built := hc.lt_length h
  only {position' m' index'} h' := by
    obtain ⟨rfl, rfl⟩ := hc.separate h' h
    exact ⟨rfl, Option.some.inj (h'.family.symm.trans h.family), rfl⟩

/-- What every request keeps is kept by several of them. -/
theorem request_keeps {P : Catalog → Prop}
    (step : ∀ {c c' : Catalog} {function : Nat} {id : GraphId},
      c.graph? position function = some (id, c') → P c → P c')
    (functions : List Nat) (h : P c) : P (c.request position functions) := by
  induction functions generalizing c with
  | nil => exact h
  | cons f functions ih =>
    apply ih
    show P (((c.graph? position f).map (·.2)).getD c)
    cases hg : c.graph? position f with
    | none => exact h
    | some answer => exact step hg h

end Catalog

end WasmEngine

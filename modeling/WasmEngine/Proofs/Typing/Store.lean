import WasmEngine.Execution.Run
import WasmEngine.Proofs.Instrumentation.Wrapping
import WasmEngine.Proofs.Typing.Rules

/-!
# Sound stores

A store is sound when its globals are well-formed, its imports have the types they are used at, and
all bodies in it are typed. Execution keeps a store sound and the index spaces of its instances as
they are; host functions have to do the same, and to give results of the type they serve.
-/
namespace WasmEngine
set_option autoImplicit false

namespace Store

def outline (s : Store) (i : InstanceId) : Outline where
  functions k := (s.function? ⟨i, k⟩).map (·.type)
  globals k := ((s.globalOf? i k).bind (s.globals[·]?)).map (·.type.valType)
  types k := (s.instances[i]?).bind (·.module.types[k]?)
  memory := ((s.memoryOf? i).bind (s.memories[·]?)).isSome
  table := ((s.tableOf? i).bind (s.tables[·]?)).isSome

def functionType? (s : Store) (f : FunctionRef) : Option FuncType :=
  (s.function? f).map (·.type)

/-- Instances may be added; the index spaces of those that exist stay as they are. -/
structure Extends (s s' : Store) : Prop where
  size : s.instances.size ≤ s'.instances.size
  outline : ∀ i, i < s.instances.size → s'.outline i = s.outline i

end Store

/-- A function that can be called at its type. `serves` tells at which types a host function may be
imported. -/
structure FunctionInstance.Sound (serves : Nat → FuncType → Prop) (s : Store) (i : InstanceId)
    (f : FunctionInstance) : Prop where
  outputs : f.type.outputs.length ≤ 1
  guest : ∀ next, f.body = .imported (.guest next) → s.functionType? next = some f.type
  host : ∀ id state, f.body = .imported (.host id state) → serves id f.type
  typed : ∀ code instrumented, f.body = .defined code instrumented →
    (∃ τ, code.Typed ((s.outline i).scope f.type code) τ) ∧
      (Running.ofFunction i f code instrumented).Faithful

structure Store.Sound (serves : Nat → FuncType → Prop) (s : Store) : Prop where
  globals : ∀ g ∈ s.globals, g.value.wellFormed g.type.valType = true
  functions : ∀ target f, s.function? target = some f → f.Sound serves s target.inst

/-- What becomes of a sound store: a sound one with the same index spaces. -/
structure Store.Evolves (serves : Nat → FuncType → Prop) (s s' : Store) : Prop extends
  Store.Extends s s' where
  sound : s'.Sound serves

namespace Store

variable {serves : Nat → FuncType → Prop} {s s' s'' : Store}

theorem Extends.trans (h : s.Extends s') (h' : s'.Extends s'') : s.Extends s'' where
  size := Nat.le_trans h.size h'.size
  outline i hi := by rw [h'.outline i (Nat.lt_of_lt_of_le hi h.size), h.outline i hi]

theorem Evolves.refl (h : s.Sound serves) : s.Evolves serves s :=
  ⟨⟨Nat.le_refl _, fun _ _ => rfl⟩, h⟩

theorem Evolves.trans (h : s.Evolves serves s') (h' : s'.Evolves serves s'') :
    s.Evolves serves s'' :=
  ⟨h.toExtends.trans h'.toExtends, h'.sound⟩

/-- A function lies in an instance of the store. -/
theorem inst_lt {target : FunctionRef} {f : FunctionInstance} (h : s.function? target = some f) :
    target.inst < s.instances.size := by
  obtain ⟨i, hi, -⟩ := Option.bind_eq_some_iff.mp h
  exact (Array.getElem?_eq_some_iff.mp hi).1

theorem Extends.functionType?_eq (h : s.Extends s') {target : FunctionRef} {type : FuncType}
    (ht : s.functionType? target = some type) : s'.functionType? target = some type := by
  obtain ⟨f, hf, -⟩ := Option.map_eq_some_iff.mp ht
  have ho := congrArg (fun o => o.functions target.func) (h.outline target.inst (inst_lt hf))
  exact ho.trans ht

/-- A change that keeps the instances and the existence and types of entities keeps the index
spaces. -/
theorem outline_eq_of (hi : s'.instances = s.instances)
    (hg : ∀ a : Nat, (s'.globals[a]?).map (·.type) = (s.globals[a]?).map (·.type))
    (hm : ∀ a : Nat, (s'.memories[a]?).isSome = (s.memories[a]?).isSome)
    (ht : ∀ a : Nat, (s'.tables[a]?).isSome = (s.tables[a]?).isSome) (i : InstanceId) :
    s'.outline i = s.outline i := by
  have hglobal : ∀ a : Nat, (s'.globals[a]?).map (·.type.valType) =
      (s.globals[a]?).map (·.type.valType) := by
    intro a
    have h := congrArg (Option.map GlobalType.valType) (hg a)
    rw [Option.map_map, Option.map_map] at h
    exact h
  simp only [outline, function?, globalOf?, memoryOf?, tableOf?, hi, Option.map_bind,
    Function.comp_def, Outline.mk.injEq, true_and]
  refine ⟨?_, ?_, ?_⟩
  · funext k
    congr 1
    funext a
    exact hglobal a
  · cases (s.instances[i]?).bind fun x => x.memories.head? with
    | none => rfl
    | some a => exact hm a
  · cases (s.instances[i]?).bind fun x => x.tables.head? with
    | none => rfl
    | some a => exact ht a

/-- Such a change keeps a store sound if it keeps the globals well-formed. -/
theorem Sound.evolves (h : s.Sound serves) (hi : s'.instances = s.instances)
    (ho : ∀ i, s'.outline i = s.outline i)
    (hg : ∀ g ∈ s'.globals, g.value.wellFormed g.type.valType = true) :
    s.Evolves serves s' := by
  have hf : ∀ target, s'.function? target = s.function? target := by
    intro target
    unfold function?
    rw [hi]
  refine ⟨⟨Nat.le_of_eq (congrArg Array.size hi).symm, fun i _ => ho i⟩, hg, ?_⟩
  intro target f htf
  rw [hf] at htf
  obtain ⟨ho', hguest, hhost, htyped⟩ := h.functions target f htf
  refine ⟨ho', ?_, hhost, ?_⟩
  · intro next hb
    rw [functionType?, hf]
    exact hguest next hb
  · rw [ho]
    exact htyped

theorem Sound.updateMemory (h : s.Sound serves) (a : MemoryAddr) (f : Memory → Memory) :
    s.Evolves serves (s.updateMemory a f) := by
  refine h.evolves rfl (outline_eq_of rfl (fun _ => rfl) ?_ fun _ => rfl) h.globals
  intro b
  simp only [Store.updateMemory, Array.getElem?_modify]
  split
  · rw [Option.isSome_map]
  · rfl

theorem Sound.growMemory (h : s.Sound serves) (a : MemoryAddr) (delta : Nat) :
    s.Evolves serves (s.growMemory a delta).2 := by
  unfold Store.growMemory
  split
  · exact h.updateMemory a _
  · exact .refl h

/-- A global may be set to a well-formed cell of its type. -/
theorem Sound.setGlobal (h : s.Sound serves) (a : GlobalAddr) (value : Cell)
    (hv : ∀ g, s.globals[a]? = some g → value.wellFormed g.type.valType = true) :
    s.Evolves serves (s.setGlobal a value) := by
  refine h.evolves rfl (outline_eq_of rfl ?_ (fun _ => rfl) fun _ => rfl) ?_
  · intro b
    simp only [Store.setGlobal, Array.getElem?_modify]
    split
    · rw [Option.map_map]
      rfl
    · rfl
  · intro g hg
    obtain ⟨b, hb⟩ := Array.getElem?_of_mem hg
    simp only [Store.setGlobal, Array.getElem?_modify] at hb
    split at hb
    · rename_i hab
      subst hab
      obtain ⟨old, hold, rfl⟩ := Option.map_eq_some_iff.mp hb
      exact hv old hold
    · exact h.globals g (Array.mem_of_getElem? hb)

end Store

/-- The result is one of the declared type. A trap has a reason. -/
def ExecutionResult.Fits (outputs : List ValType) : ExecutionResult → Prop
  | .void => outputs = []
  | .value c => ∃ t, outputs = [t] ∧ c.wellFormed t = true
  | .trap kind => kind ≠ .none

/-- The program behaves in a machine: it keeps the store sound, calls functions that exist with
arguments of their types, and ends with a result of the given type. -/
def HostProgram.Behaves (serves : Nat → FuncType → Prop) (outputs : List ValType) :
    HostProgram → Machine → Prop
  | .finish result, _ => result.Fits outputs
  | .fail _, _ => True
  | .inspect next, m => (next m).Behaves serves outputs m
  | .update change next, m =>
    m.store.Evolves serves (change m).store ∧ next.Behaves serves outputs (change m)
  | .call _ target arguments next, m =>
    ∃ type, m.store.functionType? target = some type ∧ Fits arguments type.inputs ∧
      ∀ result m', m.store.Evolves serves m'.store → result.Fits type.outputs →
        (next result).Behaves serves outputs m'

/-- Every host function behaves when it is called at a type that it serves, in every store that a
run from the store `s` can lead to. -/
def Environment.Behaves (serves : Nat → FuncType → Prop) (s : Store) (env : Environment) : Prop :=
  ∀ id type call m, serves id type → s.Evolves serves m.store →
    m.store.functionType? call.self = some type → Fits call.arguments type.inputs →
    (env.host id call).Behaves serves type.outputs m

end WasmEngine

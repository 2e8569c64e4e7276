import WasmEngine.Proofs.Embedding.Order
import WasmEngine.Proofs.Linking.Exports

/-!
# Index spaces

The index spaces and the exports of an instance agree with what its module tells of them, also when
the start function has run.
-/
namespace WasmEngine
set_option autoImplicit false

section
variable {s : Store} {module : Module} {entities : List Entity} {config : EngineConfig}
  {a : Allocation}

/-- A declared global begins with its type and the value of its initializer. -/
theorem global_of_allocate (ha : allocate s module entities config = .ok a) {k : Nat}
    {d : GlobalDef} (hd : module.globals[k]? = some d) :
    ∃ g, a.store.globals[s.globals.size + k]? = some g ∧ g.type = d.type ∧
      evalConstant (Module.importedGlobals s entities) d.type.valType d.init = .ok g.value := by
  obtain ⟨-, globals, tables, memories, hg, -, -, rfl⟩ := allocate_eq_ok.mp ha
  have hdeclared := globals_of_initialGlobals hg
  obtain ⟨hk, rfl⟩ := List.getElem?_eq_some_iff.mp hd
  have hk' : k < globals.length := hdeclared.length_eq ▸ hk
  refine ⟨globals[k], ?_, hdeclared.get hk hk'⟩
  dsimp only [allocationOf]
  rw [getElem?_append_toArray, List.getElem?_eq_getElem hk']

theorem write_globals (p : Placement) (id : InstanceId) (memory : Option MemoryAddr)
    (table : Option TableAddr) (s : Store) : (p.write id memory table s).globals = s.globals := by
  have hfold : ∀ {α : Type} {f : Store → α → Store}, (∀ s x, (f s x).globals = s.globals) →
      ∀ (l : List α) (s : Store), (l.foldl f s).globals = s.globals := fun {α f} hf l s =>
    List.foldlRecOn l f (motive := fun s' => s'.globals = s.globals) rfl
      fun s' hs x _ => (hf s' x).trans hs
  unfold Placement.write
  cases memory <;> cases table <;> dsimp only
  · refine hfold ?_ _ _
    exact fun _ _ => rfl
  · refine hfold ?_ _ _
    exact fun _ _ => rfl
  · refine (hfold ?_ _ _).trans (hfold ?_ _ _)
    · exact fun _ _ => rfl
    · exact fun _ _ => rfl

/-- Without a start function, a declared global has this value when the instance is there. -/
theorem global_of_instantiate {env : Environment} {fuel : Nat} {m m' : Machine} {id : InstanceId}
    (h : instantiate env fuel module entities config m = some (.ok id, m'))
    (hs : module.start = none) {k : Nat} {d : GlobalDef} (hd : module.globals[k]? = some d) :
    ∃ g, m'.store.globals[m.store.globals.size + k]? = some g ∧
      evalConstant (Module.importedGlobals m.store entities) d.type.valType d.init =
        .ok g.value := by
  cases instantiate_ends h with
  | @ready a p ha =>
    obtain ⟨g, hg, -, hvalue⟩ := global_of_allocate ha hd
    refine ⟨g, ?_, hvalue⟩
    rw [← write_globals p a.id a.inst.memories.head? a.inst.tables.head? a.store] at hg
    exact hg
  | started _ _ hs' => cases hs.symm.trans hs'

end

/-- The index spaces of an instance agree with its module. An instantiation that succeeds makes an
instance whose spaces have as many entries as the module counts, first the entities given for the
imports of the kind, in the order of the import section, then the declared ones in theirs. Its
functions and globals are those that the module tells at each index; a declared global has the value
of its initializer unless a start function was run. If the names of the exports are distinct, a
lookup by kind and name gives the entry at the index that the module finds for them, and nothing if
it finds none. -/
theorem index_spaces_agree (env : Environment) (fuel : Nat) (module : Module)
    (entities : List Entity) (config : EngineConfig) (m m' : Machine) (id : InstanceId)
    (hhost : ∀ start, module.start = some start → env.Orderly fun _ => True)
    (h : instantiate env fuel module entities config m = some (.ok id, m')) :
    ∃ i, m'.store.instances[id]? = some i ∧
      i.LaidOut module entities config m.store m'.store ∧
      (module.start = none → ∀ (k : Nat) (d : GlobalDef), module.globals[k]? = some d →
        ∃ g, m'.store.globals[m.store.globals.size + k]? = some g ∧
          evalConstant (Module.importedGlobals m.store entities) d.type.valType d.init =
            .ok g.value) ∧
      ((module.exports.map (·.name)).Nodup → i.Exposes module id ∧
        ((∀ e ∈ module.exports, e.index < module.count e.kind) → ∀ name, i.Finds module name)) := by
  obtain ⟨-, e, he⟩ | ⟨a, ha, hid, hrest⟩ := instantiate_cases hhost h
  · cases he
  obtain rfl := hid id rfl
  obtain ⟨i, hi, hstays, hlaid⟩ := laidOut_of_keeps ha hrest.keeps
  refine ⟨i, hi, hlaid, fun hs k d hd => global_of_instantiate h hs hd, fun hnames => ?_⟩
  have hexposes := exposes_of_allocate ha hnames hstays
  exact ⟨hexposes, fun hvalid name => hexposes.finds hlaid hvalid name⟩

/-- A module with imports of all kinds, in no order of kinds, and a start function that calls an
imported one. -/
def mixedModule : Module where
  types := [{}, ⟨[], [.i32]⟩]
  imports := [⟨"env", "count", .function ⟨[], [.i32]⟩⟩, ⟨"env", "global", .global ⟨.i32, false⟩⟩,
    ⟨"env", "memory", .memory {}⟩, ⟨"env", "run", .function {}⟩, ⟨"env", "table", .table {}⟩]
  functions := [
    { type := 0, code := { instructions := #[.call 0, .drop, .end_], maxHeight := 1 } },
    { type := 1, code := { instructions := #[.call 0, .end_], maxHeight := 1 } }]
  globals := [⟨⟨.i32, true⟩, [.const .i32 7, .end_]⟩]
  exports := [⟨"main", .function, 3⟩, ⟨"memory", .memory, 0⟩, ⟨"counter", .global, 1⟩]
  start := some 2

theorem mixed_index_spaces :
    let env : Environment := { host := fun _ => HostFunction.count }
    let m : Machine := { store := {
      memories := #[{}], tables := #[{}], globals := #[⟨0, ⟨.i32, false⟩⟩] } }
    let entities : List Entity := [.function (.host 0 0) ⟨[], [.i32]⟩, .global (some 0),
      .memory (some 0), .function (.host 1 5) {}, .table (some 0)]
    ∃ m' i, instantiate env 10 mixedModule entities {} m = some (.ok 0, m') ∧
      m'.store.instances[0]? = some i ∧ i.functions.size = 4 ∧ i.globals.size = 2 ∧
      i.exportedFunction? "main" = some (.guest ⟨0, 3⟩, ⟨[], [.i32]⟩) ∧
      i.exportedGlobal? "counter" = i.globals[1]? ∧ i.exportedMemory? "counter" = none := by
  intro env m entities
  have hhost : env.Orderly fun _ => True := Environment.Offered.orderly fun _ => .count
  obtain ⟨m', hm'⟩ : ∃ m', instantiate env 10 mixedModule entities {} m = some (.ok 0, m') :=
    ⟨_, rfl⟩
  obtain ⟨i, hi, hlaid, -, hexports⟩ :=
    index_spaces_agree env 10 mixedModule entities {} m m' 0 (fun _ _ => hhost) hm'
  obtain ⟨hexposes, -⟩ := hexports (by decide)
  exact ⟨m', i, hm', hi, hlaid.functionCount, hlaid.globalCount, hexposes.function "main",
    hexposes.global "counter", hexposes.memory "counter"⟩

end WasmEngine

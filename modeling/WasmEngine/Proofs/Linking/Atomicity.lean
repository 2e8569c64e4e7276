import WasmEngine.Proofs.Linking.Checks
import WasmEngine.Proofs.Linking.Starting

/-!
# Failed instantiation

A module that does not link leaves the store as it was: all checks come before the first write. If
the start function traps, every check has passed, and what is left is the store with all segments
written and the start function run up to the trap. The one thing added to it are marks: elements
that were written into an imported table keep the instance alive, since others can still call them.
-/
namespace WasmEngine
set_option autoImplicit false

/-- The table without the marks of elements that keep an instance alive. -/
def Table.unmarked (t : Table) : Table :=
  { t with elements := t.elements.map fun e => e.map ({ · with retained := false }) }

namespace Store

/-- The store with new entities and instances behind those it has. -/
def Appends (s s' : Store) : Prop :=
  ∃ memories tables globals instances, s' = {
    memories := s.memories ++ memories
    tables := s.tables ++ tables
    globals := s.globals ++ globals
    instances := s.instances ++ instances }

/-- The stores differ at most in the marks of table elements. -/
structure SameButMarks (s s' : Store) : Prop where
  memories : s'.memories = s.memories
  tables : s'.tables.map Table.unmarked = s.tables.map Table.unmarked
  globals : s'.globals = s.globals
  instances : s'.instances = s.instances

end Store

theorem appends_of_allocate {s : Store} {module : Module} {entities : List Entity}
    {config : EngineConfig} {a : Allocation} (h : allocate s module entities config = .ok a) :
    s.Appends a.store := by
  obtain ⟨-, globals, tables, memories, -, -, -, rfl⟩ := allocate_eq_ok.mp h
  refine ⟨memories.toArray, tables.toArray, globals.toArray,
    #[(allocationOf s module entities config globals tables memories).inst], ?_⟩
  rw [Array.append_singleton]
  rfl

theorem map_modify_of_eq {α β : Type} {f : α → α} {g : α → β} (h : ∀ x, g (f x) = g x)
    (l : Array α) (k : Nat) : (l.modify k f).map g = l.map g := by
  apply Array.ext_getElem?
  intro j
  rw [Array.getElem?_map, Array.getElem?_map, Array.getElem?_modify]
  split
  · rw [Option.map_map]
    exact congrArg (Option.map · _) (funext h)
  · rfl

theorem retain_unmarked (count : Nat) :
    ∀ (t : Table) (index : Nat), (t.retain index count).unmarked = t.unmarked := by
  induction count with
  | zero => exact fun _ _ => rfl
  | succ count ih =>
    intro t index
    rw [Table.retain, ih]
    unfold Table.unmarked
    dsimp only
    rw [map_modify_of_eq]
    intro e
    cases e <;> rfl

/-- Keeping an instance alive changes marks only. -/
theorem retain_sameButMarks (p : Placement) (table : Option TableAddr) (s : Store) :
    s.SameButMarks (p.retain table s) := by
  unfold Placement.retain
  cases table with
  | none => exact ⟨rfl, rfl, rfl, rfl⟩
  | some a =>
    refine List.foldlRecOn p.elements _ ⟨rfl, rfl, rfl, rfl⟩ fun s' hs e _ =>
      ⟨hs.memories, ?_, hs.globals, hs.instances⟩
    rw [← hs.tables]
    exact map_modify_of_eq (fun t => retain_unmarked e.2.length t e.1) s'.tables a

section
variable {env : Environment} {fuel : Nat} {module : Module} {entities : List Entity}
  {config : EngineConfig} {m m' : Machine}

/-- The call of the start function finds the segments written and has a context of its own. -/
theorem startCall_machine (a : Allocation) (p : Placement) (start : Nat) :
    (a.startCall config p m start).machine =
      { store := p.write a.id a.inst.memories.head? a.inst.tables.head? a.store
        context := {}
        interruptFlag := m.interruptFlag
        journal := (m.notify (a.notices config)).journal } := by
  unfold Allocation.startCall Allocation.initialized
  rw [notify_eq]
  rfl

theorem abandoned_eq (a : Allocation) (p : Placement) (start : Nat) (kind : TrapKind)
    (n : Machine) :
    (a.abandoned p m start kind n).context = m.context ∧
      (a.abandoned p m start kind n).store =
        if a.inst.module.importCount .table ≠ 0 then p.retain a.inst.tables.head? n.store
        else n.store := by
  unfold Allocation.abandoned
  split <;> exact ⟨rfl, rfl⟩

/-- A link error leaves everything but the journal as it was. -/
theorem instantiate_link_eq {e : LinkError}
    (h : instantiate env fuel module entities config m = some (.error (.link e), m')) :
    m' = { m with journal := m'.journal } := by
  cases instantiate_ends h with
  | unallocated => rfl
  | unplaced => exact notify_eq _ m

/-- Instantiation fails to link exactly if one of its checks fails. -/
theorem instantiate_link_iff :
    (∃ e m', instantiate env fuel module entities config m = some (.error (.link e), m')) ↔
      ¬ module.Links m.store entities config := by
  rw [links_iff]
  constructor
  · rintro ⟨e, m', h⟩ ⟨a, p, ha, hp⟩
    cases instantiate_ends h with
    | unallocated ha' => cases ha.symm.trans ha'
    | unplaced ha' hp' =>
      obtain rfl := Except.ok.inj (ha.symm.trans ha')
      cases hp.symm.trans hp'
  · intro h
    unfold instantiate
    cases ha : allocate m.store module entities config with
    | error e => exact ⟨e, m, rfl⟩
    | ok a =>
      dsimp only
      cases hp : a.place (Module.importedGlobals m.store entities) with
      | error e => exact ⟨e, _, rfl⟩
      | ok p => exact absurd ⟨a, p, ha, hp⟩ h

end

/-- Failed instantiation is atomic until the start function. A link error leaves the store as it
was, and it is given exactly if a check fails. If the start function traps, every check has passed;
the store is the one with the new instance, the data segments and then the element segments written
in order at their offsets, and the start function run in a context of its own up to the trap, but
for the marks on the elements that the segments wrote into an imported table. Entities from a set
make no difference. -/
theorem failed_instantiation_atomic (env : Environment) (fuel : Nat) (module : Module)
    (entities : List Entity) (config : EngineConfig) (m m' : Machine) :
    (∀ e, instantiate env fuel module entities config m = some (.error (.link e), m') →
      m'.store = m.store ∧ m'.context = m.context) ∧
    ((∃ e n, instantiate env fuel module entities config m = some (.error (.link e), n)) ↔
      ¬ module.Links m.store entities config) ∧
    (∀ kind, instantiate env fuel module entities config m =
        some (.error (.startTrapped kind), m') →
      module.Links m.store entities config ∧ m'.context = m.context ∧
      ∃ (a : Allocation) (p : Placement) (start : Nat) (n : Machine),
        allocate m.store module entities config = .ok a ∧ m.store.Appends a.store ∧
        p.Follows module (Module.importedGlobals m.store entities) ∧ module.start = some start ∧
        execute env fuel ⟨a.id, start⟩ []
          { store := p.write a.id a.inst.memories.head? a.inst.tables.head? a.store
            context := {}
            interruptFlag := m.interruptFlag
            journal := (m.notify (a.notices config)).journal } = some (.trap kind, n) ∧
        n.store.SameButMarks m'.store ∧
        m'.store = if module.importCount .table ≠ 0 then p.retain a.inst.tables.head? n.store
          else n.store) ∧
    ∀ set, (∀ e, instantiateFrom env fuel module set config m = some (.error (.link e), m') →
        m'.store = m.store ∧ m'.context = m.context) ∧
      ∀ kind, instantiateFrom env fuel module set config m =
          some (.error (.startTrapped kind), m') →
        ∃ provided, module.resolveImports m.store set = .ok provided ∧
          instantiate env fuel module provided config
            (m.notify (module.resolutionNotices m.store set)) =
              some (.error (.startTrapped kind), m') := by
  refine ⟨fun e h => ?_, instantiate_link_iff, fun kind h => ?_, fun set => ⟨fun e h => ?_, ?_⟩⟩
  · rw [instantiate_link_eq h]
    exact ⟨rfl, rfl⟩
  · cases instantiate_ends h with
    | @trapped a p start _ n ha hp hs hc =>
      obtain ⟨hcontext, hstore⟩ := abandoned_eq (m := a.initialized config p m) a p start kind n
      rw [inst_module_of_allocate ha] at hstore
      rw [Call.answer, startCall_machine] at hc
      refine ⟨links_iff.mpr ⟨a, p, ha, hp⟩, hcontext.trans ?_, a, p, start, n, ha,
        appends_of_allocate ha, follows_of_place ha hp, hs, hc, ?_, hstore⟩
      · rw [Allocation.initialized, notify_eq]
        rfl
      · rw [hstore]
        split
        · exact retain_sameButMarks p _ n.store
        · exact ⟨rfl, rfl, rfl, rfl⟩
  · unfold instantiateFrom at h
    have hn := notify_eq (module.resolutionNotices m.store set) m
    split at h
    · obtain ⟨-, rfl⟩ := Prod.mk.inj (Option.some.inj h)
      rw [hn]
      exact ⟨rfl, rfl⟩
    · rw [instantiate_link_eq h, hn]
      exact ⟨rfl, rfl⟩
  · intro kind h
    unfold instantiateFrom at h
    split at h
    · cases h
    · next provided hr => exact ⟨provided, hr, h⟩

/-- A memory and a table that others use. -/
def sharedStore : Store where
  memories := #[{ bytes := ⟨#[1, 2, 3, 4]⟩ }]
  tables := #[{ elements := #[none, none] }]

/-- A module that fills a part of an imported memory and an imported table and has a start function
that writes a byte and traps. -/
def sharingModule : Module where
  types := [{}]
  imports := [⟨"env", "memory", .memory {}⟩, ⟨"env", "table", .table {}⟩]
  functions := [{ type := 0, code := {
    instructions := #[.const .i32 3, .const .i32 9, .store (.packed8 .i32) 0, .unreachable, .end_]
    maxHeight := 2 } }]
  data := [⟨[.const .i32 1, .end_], [7, 8]⟩, ⟨[.const .i32 2, .end_], [6]⟩]
  elements := [⟨[.const .i32 1, .end_], [0]⟩]
  start := some 0

/-- The same module with one more data segment, which ends behind the memory. -/
def overfullModule : Module :=
  { sharingModule with data := sharingModule.data ++ [⟨[.const .i32 3, .end_], [5, 5]⟩] }

theorem sharing_abandoned :
    let shared : List Entity := [.memory (some 0), .table (some 0)]
    let m : Machine := { store := sharedStore }
    (∃ m', instantiate {} 10 overfullModule shared {} m =
        some (.error (.link .dataOutOfBounds), m') ∧ m'.store = m.store) ∧
    ∃ m', instantiate {} 10 sharingModule shared {} m =
        some (.error (.startTrapped .unreachable), m') ∧
      m'.store.memories.map (·.bytes.data) = #[#[1, 7, 6, 9]] ∧
      sharingModule.Links m.store shared {} := by
  intro shared m
  refine ⟨⟨_, rfl, ?_⟩, _, rfl, by decide +kernel, ?_⟩
  · exact ((failed_instantiation_atomic {} 10 overfullModule shared {} m _).1 _ rfl).1
  · exact ((failed_instantiation_atomic {} 10 sharingModule shared {} m _).2.2.1 _ rfl).1

/-- A module that writes its start function, which traps, into an imported table. -/
def registeringModule : Module where
  types := [{}]
  imports := [⟨"env", "table", .table {}⟩]
  functions := [{ type := 0, code := { instructions := #[.unreachable, .end_] } }]
  elements := [⟨[.const .i32 1, .end_], [0]⟩]
  start := some 0

/-- The marks are not what the segments and the start function wrote. -/
theorem registering_marks_elements :
    let m : Machine := { store := sharedStore }
    ∃ a p n m', allocate m.store registeringModule [.table (some 0)] {} = .ok a ∧
      a.place (Module.importedGlobals m.store [.table (some 0)]) = .ok p ∧
      (a.startCall {} p m 0).answer {} 10 = some (.trap .unreachable, n) ∧
      instantiate {} 10 registeringModule [.table (some 0)] {} m =
        some (.error (.startTrapped .unreachable), m') ∧
      m'.store.tables ≠ n.store.tables := by
  intro m
  have hruns : ∃ a p n m', allocate m.store registeringModule [.table (some 0)] {} = .ok a ∧
      a.place (Module.importedGlobals m.store [.table (some 0)]) = .ok p ∧
      (a.startCall {} p m 0).answer {} 10 = some (.trap .unreachable, n) ∧
      instantiate {} 10 registeringModule [.table (some 0)] {} m =
        some (.error (.startTrapped .unreachable), m') ∧
      n.store.tables.map (·.elements) = #[#[none, some ⟨⟨0, 0⟩, false⟩]] ∧
      m'.store.tables.map (·.elements) = #[#[none, some ⟨⟨0, 0⟩, true⟩]] :=
    ⟨_, _, _, _, rfl, rfl, rfl, rfl, by decide +kernel, by decide +kernel⟩
  obtain ⟨a, p, n, m', ha, hp, hn, hm', hwritten, hleft⟩ := hruns
  refine ⟨a, p, n, m', ha, hp, hn, hm', fun h => ?_⟩
  rw [h, hwritten] at hleft
  revert hleft
  decide

end WasmEngine

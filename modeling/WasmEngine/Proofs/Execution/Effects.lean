import WasmEngine.Proofs.Execution.Observation
import WasmEngine.Proofs.Typing.Numeric

/-!
# The effect of an instruction

What one instruction can do to the machine, which functions it can call and why it can trap. An
instruction of an instance touches the store in three ways only: it writes to memory 0 of the
instance, grows it, or sets a global of the instance. It calls a function of the instance or one
that table 0 holds.
-/
namespace WasmEngine
set_option autoImplicit false

def Outcome.machine : Outcome → Machine
  | .goto _ _ m | .leave _ m | .trap _ m | .call _ _ _ m => m

def Turn.machine : Turn → Machine
  | .next _ m | .done _ m | .wait _ _ _ m => m

theorem toTurn_machine (r : Running) (next : Nat) (previous : BlockId) (o : Outcome) :
    (o.toTurn r next previous).machine = o.machine := by
  cases o <;> rfl

/-- What an instruction of the instance `i` does to the machine. -/
inductive Effect (obs : Observers) (i : InstanceId) (m : Machine) : Machine → Prop
  | none : Effect obs i m m
  | access (kind : AccessKind) (address width : Nat) :
      Effect obs i m (m.reportAccess obs i kind address width)
  | write {a : MemoryAddr} (address width value : Nat) (ha : m.store.memoryOf? i = some a) :
      Effect obs i m ((m.reportAccess obs i .write address width).updateStore
        (·.updateMemory a (·.write address width value)))
  | setGlobal {index : Nat} {a : GlobalAddr} (value : Cell)
      (ha : m.store.globalOf? i index = some a) :
      Effect obs i m (m.updateStore (·.setGlobal a value))
  | grow {a : MemoryAddr} (delta : Nat) (ha : m.store.memoryOf? i = some a) :
      Effect obs i m (m.updateStore fun s => (s.growMemory a delta).2)

/-- The function is one of the instance `i` or an element of its table 0. -/
inductive Store.Callable (s : Store) (i : InstanceId) : FunctionRef → Prop
  | own (func : Nat) : Callable s i ⟨i, func⟩
  | element {a : TableAddr} {t : Table} {e : TableElement} (ha : s.tableOf? i = some a)
      (ht : s.tables[a]? = some t) (he : some e ∈ t.elements) : Callable s i e.target

/-- The reasons for which instructions trap. -/
def TrapKind.ofInstructions : List TrapKind :=
  [.unreachable, .memoryOutOfBounds, .undefinedElement, .uninitializedElement,
    .indirectCallTypeMismatch, .interrupted] ++ numeric

/-- What an instruction of the instance `i` comes to. -/
inductive StepResult (obs : Observers) (i : InstanceId) (m : Machine) : Outcome → Prop
  | goto {m' : Machine} (pc : Nat) (frame : Frame) (h : Effect obs i m m') :
      StepResult obs i m (.goto pc frame m')
  | leave (frame : Frame) : StepResult obs i m (.leave frame m)
  | trap {kind : TrapKind} {m' : Machine} (hk : kind ∈ TrapKind.ofInstructions)
      (h : Effect obs i m m') : StepResult obs i m (.trap kind m')
  | call {target : FunctionRef} (type : FuncType) (frame : Frame)
      (h : m.store.Callable i target) : StepResult obs i m (.call target type frame m)

theorem StepResult.effect {obs : Observers} {i : InstanceId} {m : Machine} {o : Outcome}
    (h : StepResult obs i m o) : Effect obs i m o.machine := by
  cases h with
  | goto _ _ h => exact h
  | leave => exact .none
  | trap _ h => exact h
  | call => exact .none

section
variable (obs : Observers) (i : InstanceId) (code : Code) (next : Nat) (frame : Frame) (m : Machine)

theorem branch_result (target : BranchTarget) (arity : Nat) :
    StepResult obs i m (Outcome.branch target arity frame m) := by
  unfold Outcome.branch
  split
  · exact .trap (by decide) .none
  · exact .goto _ _ .none

theorem ofNumeric_result {result : Except TrapKind Cell}
    (hr : ∀ kind, result = .error kind → kind ∈ TrapKind.numeric) :
    StepResult obs i m (Outcome.ofNumeric next frame m result) := by
  cases result with
  | ok c => exact .goto _ _ .none
  | error kind => exact .trap (List.mem_append_right _ (hr kind rfl)) .none

theorem stepLoad_result (op : LoadOp) (offset : Nat) :
    StepResult obs i m (stepLoad obs i op offset next frame m) := by
  unfold stepLoad
  dsimp only
  split
  · split
    · exact .goto _ _ (.access ..)
    · exact .trap (by decide) (.access ..)
  · exact .trap (by decide) (.access ..)

theorem stepStore_result (op : StoreOp) (offset : Nat) :
    StepResult obs i m (stepStore obs i op offset next frame m) := by
  unfold stepStore
  dsimp only
  rw [reportAccess_store]
  split
  · next ha =>
    split
    · exact .goto _ _ (.write _ _ _ ha)
    · exact .trap (by decide) (.access ..)
  · exact .trap (by decide) (.access ..)

theorem stepCallIndirect_result (type : Nat) :
    StepResult obs i m (stepCallIndirect i type frame m) := by
  unfold stepCallIndirect
  dsimp only
  split
  · exact .trap (by decide) .none
  · exact .trap (by decide) .none
  · next e he =>
    split
    · obtain ⟨_, helements, hx⟩ := Option.bind_eq_some_iff.mp he
      obtain ⟨t, htable, rfl⟩ := Option.map_eq_some_iff.mp helements
      obtain ⟨a, ha, ht⟩ := Option.bind_eq_some_iff.mp htable
      exact .call _ _ (.element ha ht (Array.mem_of_getElem? hx))
    · exact .trap (by decide) .none

/-- An instruction comes to one of these outcomes. -/
theorem step_result (instr : Instruction) :
    StepResult obs i m (step obs i code instr next frame m) := by
  cases instr with
  | unreachable => exact .trap (by decide) .none
  | end_ =>
    unfold step
    dsimp only
    split
    · exact .leave frame
    · exact .goto _ _ .none
  | br target arity => exact branch_result obs i frame m target arity
  | brIf target arity =>
    unfold step
    dsimp only
    split
    · exact branch_result obs i _ m target arity
    · exact .goto _ _ .none
  | brTable table arity =>
    unfold step
    dsimp only
    split
    · exact branch_result obs i _ m _ arity
    · exact .goto _ _ .none
  | return_ => exact .leave frame
  | call func => exact .call _ _ (.own func)
  | callIndirect type => exact stepCallIndirect_result obs i frame m type
  | globalSet index =>
    unfold step
    dsimp only
    split
    · next ha => exact .goto _ _ (.setGlobal _ ha)
    · exact .goto _ _ .none
  | load op offset => exact stepLoad_result obs i next frame m op offset
  | store op offset => exact stepStore_result obs i next frame m op offset
  | memoryGrow =>
    unfold step
    dsimp only
    split
    · next ha => exact .goto _ _ (.grow _ ha)
    · exact .goto _ _ .none
  | unary op => exact ofNumeric_result obs i next frame m fun _ => op.eval_error_numeric
  | binary op => exact ofNumeric_result obs i next _ m fun _ => op.eval_error_numeric
  | _ => exact .goto _ _ .none

end

section
variable {obs : Observers} {r : Running} {s s' : FrameState} {m m' : Machine}
  {target : FunctionRef} {type : FuncType}

/-- A turn has the effect of its instruction on the store. -/
theorem turn_effect (obs : Observers) (r : Running) (s : FrameState) (m : Machine) :
    ∃ m', m'.store = m.store ∧ Effect obs r.inst m' (turn obs r s m).machine := by
  unfold turn
  rcases m.context.charge with ⟨_ | _, context⟩
  · exact ⟨m.withContext context, rfl, .none⟩
  · refine ⟨(reportAt obs r s (m.withContext context)).2, reportAt_store .., ?_⟩
    dsimp only
    rw [toTurn_machine]
    exact (step_result ..).effect

theorem turn_wait (h : turn obs r s m = .wait target type s' m') :
    m'.store = m.store ∧ m.store.Callable r.inst target := by
  unfold turn at h
  split at h
  · cases h
  · next context _ =>
    dsimp only at h
    cases ho : step obs r.inst r.code (r.instruction s.pc) (s.pc + 1) s.frame
      (reportAt obs r s (m.withContext context)).2 with
    | goto | leave | trap =>
      rw [ho] at h
      cases h
    | call target' type' frame' n =>
      rw [ho] at h
      cases h
      have hresult := step_result obs r.inst r.code (s.pc + 1) s.frame
        (reportAt obs r s (m.withContext context)).2 (r.instruction s.pc)
      rw [ho] at hresult
      cases hresult with
      | call _ _ hc =>
        rw [reportAt_store] at hc
        exact ⟨reportAt_store .., hc⟩

end

end WasmEngine

import Mathlib.Algebra.Group.Int.Defs
import Mathlib.Algebra.Group.Nat.Defs
import WasmEngine.Proofs.Execution.Effects
import WasmEngine.Proofs.Execution.Stages

/-!
# The meter

The part of a context that instructions are charged to. Only the charge looks at it: everything else
that an instruction does commutes with putting in another meter, and so does a host function that
ignores it.
-/
namespace WasmEngine
set_option autoImplicit false

/-- The metering fields of a context. -/
structure Meter where
  metering : Bool
  ticks : Int64
  steps : UInt64
  deriving DecidableEq

/-- The meter of a metered context in which `t` ticks are left. -/
def Meter.holding (t : Int) (steps : UInt64) : Meter := ⟨true, Int64.ofInt t, steps⟩

namespace Context

def meter (c : Context) : Meter := ⟨c.metering, c.ticks, c.steps⟩

def withMeter (c : Context) (μ : Meter) : Context :=
  { c with metering := μ.metering, ticks := μ.ticks, steps := μ.steps }

variable (c : Context) {μ : Meter} {t : Int} (u : UInt64)

/-- Without metering nothing is charged. -/
theorem charge_off (hμ : μ.metering = false) : (c.withMeter μ).charge = (true, c.withMeter μ) := by
  unfold charge withMeter
  rw [if_neg (by rw [hμ]; exact nofun)]

theorem ofInt_sub_one_lt_zero_iff (hlow : -2 ^ 63 < t) (hhigh : t < 2 ^ 63) :
    Int64.ofInt t - 1 < 0 ↔ t ≤ 0 := by
  have hsub : Int64.ofInt t - 1 = Int64.ofInt (t - 1) := (Int64.ofInt_sub t 1).symm
  rw [hsub, Int64.lt_iff_toInt_lt, Int64.toInt_ofInt_of_le (by omega) (by omega), Int64.toInt_zero]
  omega

/-- A tick that is left pays for an instruction, which counts as a step. -/
theorem charge_paid (hpos : 0 < t) (hhigh : t < 2 ^ 63) :
    (c.withMeter (.holding t u)).charge = (true, c.withMeter (.holding (t - 1) (u + 1))) := by
  have hticks : ¬ Int64.ofInt t - 1 < 0 := by
    rw [ofInt_sub_one_lt_zero_iff (by omega) hhigh]
    omega
  unfold charge withMeter Meter.holding
  dsimp only
  rw [if_pos rfl, if_neg hticks, Int64.ofInt_sub]
  rfl

/-- The charge that fails is taken too. -/
theorem charge_unpaid (hlow : -2 ^ 63 < t) (hnonpos : t ≤ 0) :
    (c.withMeter (.holding t u)).charge = (false, c.withMeter (.holding (t - 1) u)) := by
  have hticks : Int64.ofInt t - 1 < 0 :=
    (ofInt_sub_one_lt_zero_iff hlow (by omega)).mpr hnonpos
  unfold charge withMeter Meter.holding
  dsimp only
  rw [if_pos rfl, if_pos hticks, Int64.ofInt_sub]
  rfl

end Context

namespace Machine

def meter (m : Machine) : Meter := m.context.meter

def withMeter (m : Machine) (μ : Meter) : Machine := m.withContext (m.context.withMeter μ)

variable (m : Machine) (μ : Meter)

@[simp] theorem withMeter_store : (m.withMeter μ).store = m.store := rfl

@[simp] theorem withMeter_meter : (m.withMeter μ).meter = μ := rfl

@[simp] theorem withMeter_self : m.withMeter m.meter = m := rfl

variable (obs : Observers)

theorem reportCoverage_withMeter (function : String) (listener : Nat) (e : CoverageEvent) :
    (m.withMeter μ).reportCoverage obs function listener e =
      (m.reportCoverage obs function listener e).withMeter μ := by
  unfold reportCoverage
  dsimp only
  split <;> rfl

theorem reportInstruction_withMeter (function : String) (tracer offset opcode : Nat) :
    (m.withMeter μ).reportInstruction obs function tracer offset opcode =
      (m.reportInstruction obs function tracer offset opcode).withMeter μ := by
  unfold reportInstruction
  dsimp only
  split <;> rfl

theorem reportAccess_withMeter (i : InstanceId) (kind : AccessKind) (address width : Nat) :
    (m.withMeter μ).reportAccess obs i kind address width =
      (m.reportAccess obs i kind address width).withMeter μ := by
  unfold reportAccess
  rw [withMeter_store]
  split
  · rfl
  · dsimp only
    split <;> rfl

theorem reportProbe_withMeter (i : InstanceId) (function : String) (probe : Probe)
    (previous : BlockId) :
    (m.withMeter μ).reportProbe obs i function probe previous =
      (m.reportProbe obs i function probe previous).withMeter μ := by
  unfold reportProbe
  rw [withMeter_store]
  cases (m.store.instances[i]?).bind (·.listener) <;>
    cases (m.store.instances[i]?).bind (·.tracer) <;> dsimp only <;> repeat' split
  all_goals simp only [reportInstruction_withMeter, reportCoverage_withMeter]

end Machine

def Outcome.withMeter (μ : Meter) : Outcome → Outcome
  | .goto pc frame m => .goto pc frame (m.withMeter μ)
  | .leave frame m => .leave frame (m.withMeter μ)
  | .trap kind m => .trap kind (m.withMeter μ)
  | .call target type frame m => .call target type frame (m.withMeter μ)

def Turn.withMeter (μ : Meter) : Turn → Turn
  | .next s m => .next s (m.withMeter μ)
  | .done result m => .done result (m.withMeter μ)
  | .wait target type s m => .wait target type s (m.withMeter μ)

section
variable (obs : Observers) (i : InstanceId) (code : Code) (next : Nat) (frame : Frame) (m : Machine)
  (μ : Meter)

theorem branch_withMeter (target : BranchTarget) (arity : Nat) :
    Outcome.branch target arity frame (m.withMeter μ) =
      (Outcome.branch target arity frame m).withMeter μ := by
  unfold Outcome.branch
  have h : (m.withMeter μ).interruptRequested = m.interruptRequested := rfl
  rw [h]
  split <;> rfl

theorem ofNumeric_withMeter (result : Except TrapKind Cell) :
    Outcome.ofNumeric next frame (m.withMeter μ) result =
      (Outcome.ofNumeric next frame m result).withMeter μ := by
  cases result <;> rfl

theorem stepLoad_withMeter (op : LoadOp) (offset : Nat) :
    stepLoad obs i op offset next frame (m.withMeter μ) =
      (stepLoad obs i op offset next frame m).withMeter μ := by
  unfold stepLoad
  dsimp only
  rw [m.reportAccess_withMeter, Machine.withMeter_store]
  split
  · split <;> rfl
  · rfl

theorem stepStore_withMeter (op : StoreOp) (offset : Nat) :
    stepStore obs i op offset next frame (m.withMeter μ) =
      (stepStore obs i op offset next frame m).withMeter μ := by
  unfold stepStore
  dsimp only
  rw [m.reportAccess_withMeter, Machine.withMeter_store]
  split
  · split <;> rfl
  · rfl

theorem stepCallIndirect_withMeter (type : Nat) :
    stepCallIndirect i type frame (m.withMeter μ) =
      (stepCallIndirect i type frame m).withMeter μ := by
  unfold stepCallIndirect
  rw [Machine.withMeter_store]
  dsimp only
  repeat' split
  all_goals rfl

/-- No instruction looks at the meter. -/
theorem step_withMeter (instr : Instruction) :
    step obs i code instr next frame (m.withMeter μ) =
      (step obs i code instr next frame m).withMeter μ := by
  cases instr with
  | end_ =>
    unfold step
    dsimp only
    split <;> rfl
  | br target arity => exact branch_withMeter frame m μ target arity
  | brIf target arity =>
    unfold step
    dsimp only
    split
    · exact branch_withMeter _ m μ target arity
    · rfl
  | brTable table arity =>
    unfold step
    dsimp only
    split
    · exact branch_withMeter _ m μ _ arity
    · rfl
  | callIndirect type => exact stepCallIndirect_withMeter i frame m μ type
  | globalSet index =>
    unfold step
    rw [Machine.withMeter_store]
    dsimp only
    split <;> rfl
  | load op offset => exact stepLoad_withMeter obs i next frame m μ op offset
  | store op offset => exact stepStore_withMeter obs i next frame m μ op offset
  | memoryGrow =>
    unfold step
    rw [Machine.withMeter_store]
    dsimp only
    split <;> rfl
  | unary op => exact ofNumeric_withMeter next frame m μ _
  | binary op => exact ofNumeric_withMeter next _ m μ _
  | _ => rfl

end

/-- A turn of a frame whose instruction is paid for. -/
def paidTurn (obs : Observers) (r : Running) (s : FrameState) (m : Machine) : Turn :=
  let (s', m') := reportAt obs r s m
  (step obs r.inst r.code (r.instruction s.pc) (s.pc + 1) s.frame m').toTurn r (s.pc + 1)
    s'.previous

section
variable (obs : Observers) (r : Running) (s : FrameState) (m : Machine)

theorem reportAt_withMeter (μ : Meter) :
    reportAt obs r s (m.withMeter μ) =
      ((reportAt obs r s m).1, (reportAt obs r s m).2.withMeter μ) := by
  unfold reportAt
  split
  · rfl
  · rw [m.reportProbe_withMeter]

theorem toTurn_withMeter (next : Nat) (previous : BlockId) (o : Outcome) (μ : Meter) :
    (o.withMeter μ).toTurn r next previous = (o.toTurn r next previous).withMeter μ := by
  cases o <;> rfl

theorem paidTurn_withMeter (μ : Meter) :
    paidTurn obs r s (m.withMeter μ) = (paidTurn obs r s m).withMeter μ := by
  unfold paidTurn
  rw [reportAt_withMeter]
  dsimp only
  rw [step_withMeter, toTurn_withMeter]

/-- An instruction that is paid for is run, whatever the meter. -/
theorem turn_withMeter {μ ν : Meter}
    (h : (m.context.withMeter μ).charge = (true, m.context.withMeter ν)) :
    turn obs r s (m.withMeter μ) = (paidTurn obs r s m).withMeter ν := by
  have hcontext : (m.withMeter μ).context = m.context.withMeter μ := rfl
  rw [← paidTurn_withMeter]
  unfold turn
  rw [hcontext, h]
  rfl

/-- With no tick left a frame ends before its instruction. -/
theorem turn_unpaid {t : Int} (u : UInt64) (hlow : -2 ^ 63 < t) (hnonpos : t ≤ 0) :
    turn obs r s (m.withMeter (.holding t u)) =
      .done (.trap .outOfTicks) (m.withMeter (.holding (t - 1) u)) := by
  have hcharge := m.context.charge_unpaid u hlow hnonpos
  unfold turn
  have hcontext : (m.withMeter (.holding t u)).context = m.context.withMeter (.holding t u) := rfl
  rw [hcontext, hcharge]
  rfl

end

/-- The program neither reads nor changes the meter of the context it runs in, and calls functions
in contexts of their own only. -/
def HostProgram.IgnoresMeter : HostProgram → Prop
  | .finish _ => True
  | .fail _ => True
  | .inspect next =>
    (∀ (m : Machine) (μ : Meter), next (m.withMeter μ) = next m) ∧ ∀ m, (next m).IgnoresMeter
  | .update change next =>
    (∀ (m : Machine) (μ : Meter), change (m.withMeter μ) = (change m).withMeter μ) ∧
      next.IgnoresMeter
  | .call .same _ _ _ => False
  | .call .fresh _ _ next => ∀ result, (next result).IgnoresMeter

section
variable {invoke : Invoke} {program : HostProgram}

theorem runHost_withMeter (h : program.IgnoresMeter) (m : Machine) (μ : Meter) :
    runHost invoke program (m.withMeter μ) =
      (runHost invoke program m).map fun e => (e.1, e.2.withMeter μ) := by
  induction program generalizing m with
  | finish result => rfl
  | fail failure => rfl
  | inspect next ih =>
    rw [runHost, runHost, h.1]
    exact ih m (h.2 m) m
  | update change next ih =>
    rw [runHost, runHost, h.1]
    exact ih h.2 (change m)
  | call scope target arguments next ih =>
    cases scope with
    | same => exact h.elim
    | fresh =>
      rw [runHost, runHost]
      -- the context of the call is a new one under any meter
      have hcontext : (m.withMeter μ).withContext {} = m.withContext {} := rfl
      rw [hcontext]
      cases invoke target arguments (m.withContext {}) with
      | none => rfl
      | some answer => exact ih answer.1 (h answer.1) (answer.2.withContext m.context)

/-- A host function that ignores the meter does the same under any meter. -/
theorem callHost_withMeter (h : program.IgnoresMeter) (m : Machine) (μ : Meter) :
    callHost invoke program (m.withMeter μ) =
      (callHost invoke program m).map fun e => (e.1, e.2.withMeter μ) := by
  unfold callHost
  rw [runHost_withMeter h]
  rcases runHost invoke program m with _ | ⟨_ | _, m'⟩ <;> rfl

theorem callHost_meter (h : program.IgnoresMeter) {m n : Machine} {result : ExecutionResult}
    (ha : callHost invoke program m = some (result, n)) : n.meter = m.meter := by
  have hsame := @callHost_withMeter invoke program h m m.meter
  rw [Machine.withMeter_self, ha] at hsame
  have hn : n = n.withMeter m.meter := congrArg Prod.snd (Option.some.inj hsame)
  rw [hn, Machine.withMeter_meter]

/-- It makes no calls in the context it runs in. -/
theorem hostStages_eq_nil (h : program.IgnoresMeter) (m : Machine) :
    hostStages invoke program m = [] := by
  induction program generalizing m with
  | finish result => rfl
  | fail failure => rfl
  | inspect next ih => exact ih m (h.2 m) m
  | update change next ih => exact ih h.2 (change m)
  | call scope target arguments next ih =>
    cases scope with
    | same => exact h.elim
    | fresh =>
      rw [hostStages]
      cases invoke target arguments (m.withContext {}) with
      | none => rfl
      | some answer => exact ih answer.1 (h answer.1) (answer.2.withContext m.context)

end

end WasmEngine

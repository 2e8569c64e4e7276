import WasmEngine.Proofs.Execution.Configurations
import WasmEngine.Proofs.Execution.Routes

/-!
# Interruption

The flag is polled where a call is made and where a branch is taken. That is enough to end a run in
which a host function sets it: from then on no call is entered and no branch goes on, so the frames
that are open move forward only, and run at most the instructions that they have ahead. The trap of
a branch or a call ends one frame after another, up to a host function that does not pass it on.
-/
namespace WasmEngine
set_option autoImplicit false

section
variable (obs : Observers)

theorem reportCoverage_interruptFlag (m : Machine) (function : String) (listener : Nat)
    (e : CoverageEvent) :
    (m.reportCoverage obs function listener e).interruptFlag = m.interruptFlag := by
  unfold Machine.reportCoverage
  dsimp only
  split <;> rfl

theorem reportInstruction_interruptFlag (m : Machine) (function : String)
    (tracer offset opcode : Nat) :
    (m.reportInstruction obs function tracer offset opcode).interruptFlag = m.interruptFlag := by
  unfold Machine.reportInstruction
  dsimp only
  split <;> rfl

theorem reportAt_interruptFlag (r : Running) (s : FrameState) (m : Machine) :
    (reportAt obs r s m).2.interruptFlag = m.interruptFlag := by
  unfold reportAt
  split
  · rfl
  · unfold Machine.reportProbe
    dsimp only
    repeat' split
    all_goals simp only [reportCoverage_interruptFlag, reportInstruction_interruptFlag]

theorem Context.charge_interruptible (c : Context) :
    c.charge.2.interruptible = c.interruptible := by
  unfold charge
  split
  · dsimp only
    split <;> rfl
  · rfl

/-- What comes before an instruction leaves the request of an interrupt alone. -/
theorem reached_interruptRequested (r : Running) (s : FrameState) (m : Machine) :
    (reached r s m obs).2.interruptRequested = m.interruptRequested := by
  unfold Machine.interruptRequested reached
  rw [reportAt_context, reportAt_interruptFlag]
  exact congrArg (· && m.interruptFlag) m.context.charge_interruptible

theorem turn_paid {r : Running} {s : FrameState} {m : Machine} (hpaid : m.context.charge.1 = true) :
    turn obs r s m = (step obs r.inst r.code (r.instruction s.pc) (s.pc + 1) s.frame
      (reached r s m obs).2).toTurn r (s.pc + 1) (reached r s m obs).1.previous := by
  rw [turn_eq_paidTurn obs hpaid]
  rfl

end

/-- The outcome goes on at such an offset, if it goes on in the frame. -/
def Outcome.GoesTo (P : Nat → Prop) : Outcome → Prop
  | .goto pc _ _ => P pc
  | .leave _ _ | .trap _ _ | .call _ _ _ _ => True

section
variable {m : Machine}

theorem branch_interrupted (hflag : m.interruptRequested = true) (target : BranchTarget)
    (arity : Nat) (frame : Frame) : Outcome.branch target arity frame m = .trap .interrupted m :=
  if_pos hflag

theorem ofNumeric_goesTo {P : Nat → Prop} {next : Nat} (h : P next) (frame : Frame)
    (result : Except TrapKind Cell) : (Outcome.ofNumeric next frame m result).GoesTo P := by
  cases result with
  | ok c => exact h
  | error kind => trivial

/-- Under an interrupt, an instruction goes on behind it or at the target of an `if` or `else`. -/
theorem step_goesTo (obs : Observers) (i : InstanceId) (code : Code)
    (hflag : m.interruptRequested = true) (instr : Instruction) (next : Nat) (frame : Frame) :
    (step obs i code instr next frame m).GoesTo fun pc =>
      pc = next ∨ instr = .if_ pc ∨ instr = .else_ pc := by
  cases instr with
  | unreachable => trivial
  | return_ => trivial
  | call func => trivial
  | if_ otherwise =>
    unfold step Outcome.GoesTo
    dsimp only
    split
    · exact .inl rfl
    · exact .inr (.inl rfl)
  | else_ resume => exact .inr (.inr rfl)
  | end_ =>
    unfold step
    dsimp only
    split
    · trivial
    · exact .inl rfl
  | br target arity =>
    unfold step
    dsimp only
    rw [branch_interrupted hflag]
    trivial
  | brIf target arity =>
    unfold step
    dsimp only
    rw [branch_interrupted hflag]
    split
    · trivial
    · exact .inl rfl
  | brTable table arity =>
    unfold step
    dsimp only
    split
    · rw [branch_interrupted hflag]
      trivial
    · exact .inl rfl
  | callIndirect type =>
    unfold step stepCallIndirect
    dsimp only
    split
    · trivial
    · trivial
    · split <;> trivial
  | load op offset =>
    unfold step stepLoad
    dsimp only
    repeat' split
    · exact .inl rfl
    · trivial
    · trivial
  | store op offset =>
    unfold step stepStore
    dsimp only
    repeat' split
    · exact .inl rfl
    · trivial
    · trivial
  | memoryGrow =>
    unfold step
    dsimp only
    split
    · exact .inl rfl
    · exact .inl rfl
  | unary op => exact ofNumeric_goesTo (.inl rfl) _ _
  | binary op => exact ofNumeric_goesTo (.inl rfl) _ _
  | _ => exact .inl rfl

end

/-- The target of an `if` or an `else` at the offset is behind it. -/
def Instruction.Forward (pc : Nat) : Instruction → Prop
  | .if_ target | .else_ target => pc < target
  | _ => True

instance (pc : Nat) (instr : Instruction) : Decidable (instr.Forward pc) := by
  unfold Instruction.Forward
  split <;> infer_instance

namespace Running

variable (r : Running)

/-- The targets of `if` and `else` are behind them in the body that runs. -/
def Forward : Prop := ∀ pc < r.instructions.size, (r.instruction pc).Forward pc

instance : Decidable r.Forward :=
  inferInstanceAs (Decidable (∀ pc < r.instructions.size, (r.instruction pc).Forward pc))

/-- The frame is at a branch and takes it. -/
def TakesBranch (s : FrameState) : Prop :=
  match r.instruction s.pc with
  | .br _ _ => True
  | .brIf _ _ => s.frame.peek.isTrue
  | .brTable table _ => (selectTarget (r.code.branchTable table) s.frame.peek.index).isSome
  | _ => False

variable {r}

/-- Past the end of the body the function returns. -/
theorem instruction_of_size_le {pc : Nat} (h : r.instructions.size ≤ pc) :
    r.instruction pc = .return_ := by
  unfold instruction probe?
  rw [Array.getD_eq_getD_getElem?, Array.getElem?_eq_none h]
  rfl

end Running

/-- What the turn of a frame comes to under an interrupt: it goes on further ahead, or not at
all. -/
inductive Turn.Onward (r : Running) (s : FrameState) : Turn → Prop
  | next {s' : FrameState} {m : Machine} (hinside : s.pc < r.instructions.size)
      (hpc : s.pc < s'.pc) : Onward r s (.next s' m)
  | done {result : ExecutionResult} {m : Machine} : Onward r s (.done result m)
  | wait {target : FunctionRef} {type : FuncType} {s' : FrameState} {m : Machine}
      (hinside : s.pc < r.instructions.size) (hpc : s.pc < s'.pc) :
      Onward r s (.wait target type s' m)

theorem turn_onward (obs : Observers) {r : Running} {s : FrameState} {m : Machine}
    (hflag : m.interruptRequested = true) (hr : r.Forward) : (turn obs r s m).Onward r s := by
  cases hpaid : m.context.charge.1 with
  | false =>
    unfold turn
    rcases hcharge : m.context.charge with ⟨paid, context⟩
    obtain rfl : paid = false := by rwa [hcharge] at hpaid
    exact .done
  | true =>
    rw [turn_paid obs hpaid]
    rcases Nat.lt_or_ge s.pc r.instructions.size with hinside | houtside
    · have hreached := (reached_interruptRequested obs r s m).trans hflag
      have hgoes := step_goesTo obs r.inst r.code hreached (r.instruction s.pc) (s.pc + 1) s.frame
      cases ho : step obs r.inst r.code (r.instruction s.pc) (s.pc + 1) s.frame
        (reached r s m obs).2 with
      | goto pc frame m' =>
        rw [ho] at hgoes
        refine .next hinside ?_
        rcases hgoes with rfl | htarget
        · exact Nat.lt_succ_self _
        · have hforward := hr s.pc hinside
          rcases htarget with hi | hi
          all_goals
            rw [hi] at hforward
            exact hforward
      | leave frame m' => exact .done
      | trap kind m' => exact .done
      | call target type frame m' => exact .wait hinside (Nat.lt_succ_self _)
    · rw [Running.instruction_of_size_le houtside]
      exact .done

/-- A frame that is open, and the instruction that it is at or goes on with. -/
structure OpenFrame where
  running : Running
  pc : Nat

namespace OpenFrame

/-- The number of instructions that the frames have ahead. -/
def total : List OpenFrame → Nat
  | [] => 0
  | x :: l => (x.running.instructions.size - x.pc) + total l

theorem total_cons (x : OpenFrame) (l : List OpenFrame) :
    total (x :: l) = (x.running.instructions.size - x.pc) + total l := rfl

theorem total_moved {r : Running} {pc pc' : Nat} (l : List OpenFrame)
    (hinside : pc < r.instructions.size) (h : pc < pc') :
    total (⟨r, pc'⟩ :: l) < total (⟨r, pc⟩ :: l) := by
  rw [total_cons, total_cons]
  dsimp only
  omega

/-- Open frames move: the innermost one ends, or goes on further ahead. -/
inductive Advances : List OpenFrame → List OpenFrame → Prop
  | same (l : List OpenFrame) : Advances l l
  | ended (x : OpenFrame) (l : List OpenFrame) : Advances (x :: l) l
  | moved {r : Running} {pc pc' : Nat} (l : List OpenFrame) (h : pc < pc') :
      Advances (⟨r, pc⟩ :: l) (⟨r, pc'⟩ :: l)

theorem Advances.forward {l l' : List OpenFrame} (h : Advances l l')
    (hl : ∀ x ∈ l, x.running.Forward) : ∀ x ∈ l', x.running.Forward := by
  cases h with
  | same => exact hl
  | ended => exact (List.forall_mem_cons.mp hl).2
  | moved => exact List.forall_mem_cons.mpr (List.forall_mem_cons.mp hl)

theorem Advances.total_le {l l' : List OpenFrame} (h : Advances l l') : total l' ≤ total l := by
  cases h with
  | same => exact Nat.le_refl _
  | ended x =>
    rw [total_cons]
    exact Nat.le_add_left _ _
  | moved _ h =>
    rw [total_cons, total_cons]
    dsimp only
    omega

end OpenFrame

def Control.frame? : Control → Option OpenFrame
  | .frame r s _ => some ⟨r, s.pc⟩
  | .call _ | .host _ _ | .answer _ _ => none

def Waiting.frame? : Waiting → Option OpenFrame
  | .frame r _ s => some ⟨r, s.pc⟩
  | .host _ | .link => none

/-- Whatever it is told, the program ends in the result. -/
def HostProgram.EndsIn (result : ExecutionResult) : HostProgram → Prop
  | .finish result' => result' = result
  | .fail _ => .trap .host = result
  | .inspect next => ∀ m, (next m).EndsIn result
  | .update _ next => next.EndsIn result
  | .call _ _ _ next => ∀ result', (next result').EndsIn result

/-- It passes the trap of an interrupt on. -/
def Waiting.Relays : Waiting → Prop
  | .host next => (next (.trap .interrupted)).EndsIn (.trap .interrupted)
  | .frame _ _ _ | .link => True

namespace Configuration

variable (κ : Configuration)

/-- The open frames, the innermost first. -/
def frames : List OpenFrame := κ.control.frame?.toList ++ κ.waiting.filterMap (·.frame?)

/-- The number of instructions that the open frames have ahead. -/
def ahead : Nat := OpenFrame.total κ.frames

/-- An instruction of a body is run: a tick is left for it. -/
def executes : Bool :=
  match κ.control with
  | .frame r s m => m.context.charge.1 && decide (s.pc < r.instructions.size)
  | .call _ | .host _ _ | .answer _ _ => false

/-- The number of instructions that are run. -/
def executed (l : List Configuration) : Nat := l.countP (·.executes)

end Configuration

section
variable {env : Environment}

/-- Under an interrupt a call is refused, for its depth or for the interrupt. -/
def Machine.refusal (m : Machine) : TrapKind :=
  if callStackLimit ≤ m.context.depth then .callStackExhausted else .interrupted

theorem Machine.refusal_ne_none (m : Machine) : m.refusal ≠ .none := by
  unfold refusal
  split <;> nofun

theorem Machine.refusal_of_lt {m : Machine} (h : m.context.depth < callStackLimit) :
    m.refusal = .interrupted := if_neg (Nat.not_le.mpr h)

theorem Call.plan_of_interrupted {c : Call} (hflag : c.machine.interruptRequested = true) :
    c.plan env = .refuse c.machine.refusal := by
  unfold plan Machine.refusal
  split <;> rfl

namespace Configuration

open OpenFrame

theorem frames_goOn (result : ExecutionResult) (m : Machine) (x : Waiting) (w : List Waiting) :
    Advances (frames ⟨.answer result m, x :: w⟩) (frames ⟨x.goOn result m, w⟩) := by
  cases x with
  | frame r type s =>
    unfold Waiting.goOn
    dsimp only
    cases aborts result with
    | some kind => exact .ended ..
    | none => exact .same _
  | host next => exact .same _
  | link => exact .same _

section
variable {r : Running} {s : FrameState} {m : Machine} {w : List Waiting}

theorem pc_lt_of_executes (h : executes ⟨.frame r s m, w⟩ = true) :
    s.pc < r.instructions.size :=
  of_decide_eq_true (Bool.and_eq_true_iff.mp h).2

theorem frame_onward (obs : Observers)
    (hflag : (Configuration.mk (.frame r s m) w).machine.interruptRequested = true)
    (hforward : ∀ x ∈ frames ⟨.frame r s m, w⟩, x.running.Forward) :
    (turn obs r s m).Onward r s :=
  turn_onward obs hflag (hforward ⟨r, s.pc⟩ (.head _))

end

/-- A step under an interrupt moves the open frames, and leaves less ahead if it runs an
instruction. -/
theorem Step.advances {κ κ' : Configuration} (h : Step env κ κ')
    (hflag : κ.machine.interruptRequested = true) (hforward : ∀ x ∈ κ.frames, x.running.Forward) :
    Advances κ.frames κ'.frames ∧ (κ.executes = true → κ'.ahead < κ.ahead) := by
  -- a call is refused, so it comes to nothing else
  have hrefused : ∀ {c : Call} {plan : Plan}, c.machine.interruptRequested = true →
      c.plan env = plan → plan = .refuse c.machine.refusal := fun hc hp =>
    hp.symm.trans (Call.plan_of_interrupted hc)
  cases h with
  | refuse => exact ⟨.same _, nofun⟩
  | link hp => cases hrefused hflag hp
  | enterHost hp => cases hrefused hflag hp
  | enterFrame hp => cases hrefused hflag hp
  | next hturn =>
    have honward := frame_onward env.toObservers hflag hforward
    rw [hturn] at honward
    cases honward with
    | next hinside hpc => exact ⟨.moved _ hpc, fun _ => total_moved _ hinside hpc⟩
  | @done r s _ _ _ _ hturn =>
    refine ⟨.ended ⟨r, s.pc⟩ _, fun hexecutes => ?_⟩
    exact Nat.lt_add_of_pos_left (Nat.sub_pos_of_lt (pc_lt_of_executes hexecutes))
  | wait hturn =>
    have honward := frame_onward env.toObservers hflag hforward
    rw [hturn] at honward
    cases honward with
    | wait hinside hpc => exact ⟨.moved _ hpc, fun _ => total_moved _ hinside hpc⟩
  | goOn => exact ⟨frames_goOn .., nofun⟩
  | finish | fail | inspect | update | callSame | callFresh => exact ⟨.same _, nofun⟩

/-- An interrupt is requested and stays so, runs in contexts of their own return, and the open
frames have their targets of `if` and `else` ahead. -/
structure Interrupted (env : Environment) (κ : Configuration) : Prop where
  requested : ∀ κ', Reaches env κ κ' → κ'.machine.interruptRequested = true
  returns : ∀ target arguments next m w,
    Reaches env κ ⟨.host (.call .fresh target arguments next) m, w⟩ →
      ∃ fuel e, execute env fuel target arguments (m.withContext {}) = some e
  forward : ∀ x ∈ κ.frames, x.running.Forward

namespace Interrupted

variable {κ κ' : Configuration}

theorem flag (h : κ.Interrupted env) : κ.machine.interruptRequested = true :=
  h.requested κ (.refl κ)

theorem step (h : κ.Interrupted env) (hstep : Step env κ κ') : κ'.Interrupted env where
  requested κ'' hκ'' := h.requested κ'' (hstep.to hκ'')
  returns target arguments next m w hκ'' := h.returns target arguments next m w (hstep.to hκ'')
  forward := (hstep.advances h.flag h.forward).1.forward h.forward

theorem reaches (h : κ.Interrupted env) (hreaches : Reaches env κ κ') : κ'.Interrupted env := by
  obtain ⟨l, hl⟩ := hreaches
  induction hl with
  | refl => exact h
  | step hstep _ ih => exact ih (h.step hstep)

/-- A run under an interrupt moves the open frames step by step, and runs no more instructions than
there are ahead. -/
theorem passes {l : List Configuration} (h : κ.Interrupted env) (hl : Passes env κ l κ') :
    Relation.ReflTransGen Advances κ.frames κ'.frames ∧ executed l + κ'.ahead ≤ κ.ahead := by
  induction hl with
  | refl => exact ⟨.refl, Nat.le_of_eq (Nat.zero_add _)⟩
  | @step κ κ' κ'' l hstep _ ih =>
    obtain ⟨hadvances, hruns⟩ := hstep.advances h.flag h.forward
    obtain ⟨hrest, hcount⟩ := ih (h.step hstep)
    refine ⟨.head hadvances hrest, ?_⟩
    have hle : κ'.ahead ≤ κ.ahead := hadvances.total_le
    unfold executed at hcount ⊢
    rw [List.countP_cons]
    split
    · next hexecutes =>
      have hlt := hruns hexecutes
      omega
    · omega

/-- A call is refused. -/
theorem call {c : Call} {w : List Waiting} (h : Interrupted env ⟨.call c, w⟩) :
    Step env ⟨.call c, w⟩ ⟨.answer (.trap c.machine.refusal) c.machine, w⟩ :=
  .refuse (Call.plan_of_interrupted h.flag)

/-- So it ends the frame that makes it. -/
theorem wait {r : Running} {s s' : FrameState} {m m' : Machine} {target : FunctionRef}
    {type : FuncType} {w : List Waiting} (h : Interrupted env ⟨.frame r s m, w⟩)
    (hturn : turn env.toObservers r s m = .wait target type s' m') :
    Reaches env ⟨.frame r s m, w⟩ ⟨.answer (.trap m.refusal) m'.leave, w⟩ := by
  have hrefused := (h.step (.wait hturn)).call
  have hdepth : m'.context.depth = m.context.depth := turn_depth hturn
  have hsame : m'.refusal = m.refusal := by
    unfold Machine.refusal
    rw [hdepth]
  have habort := aborts_eq_some.mpr ⟨rfl, m.refusal_ne_none⟩
  rw [← hsame] at habort ⊢
  exact (Step.wait hturn).to (hrefused.to (Step.abort habort).reaches)

/-- A frame ends: what it has ahead gets less with every turn. -/
theorem frame_ends {r : Running} (n : Nat) : ∀ {s : FrameState} {m : Machine} {w : List Waiting},
    r.instructions.size - s.pc = n → Interrupted env ⟨.frame r s m, w⟩ →
      ∃ result m', Reaches env ⟨.frame r s m, w⟩ ⟨.answer result m', w⟩ := by
  induction n using Nat.strongRecOn with
  | ind n ih =>
    intro s m w hn h
    have honward := frame_onward env.toObservers h.flag h.forward
    cases hturn : turn env.toObservers r s m with
    | next s' m' =>
      rw [hturn] at honward
      cases honward with
      | next hinside hpc =>
        obtain ⟨result, m'', hrest⟩ := ih _ (by omega) rfl (h.step (.next hturn))
        exact ⟨result, m'', (Step.next hturn).to hrest⟩
    | done result m' => exact ⟨result, m'.leave, (Step.done hturn).reaches⟩
    | wait target type s' m' => exact ⟨_, _, h.wait hturn⟩

/-- A host function ends, with the result that it is bound to end in if there is one. -/
theorem host_ends {program : HostProgram} : ∀ {m : Machine} {w : List Waiting},
    Interrupted env ⟨.host program m, w⟩ →
      ∃ result m', Reaches env ⟨.host program m, w⟩ ⟨.answer result m', w⟩ ∧
        ∀ expected, program.EndsIn expected → result = expected := by
  induction program with
  | finish result =>
    exact fun {m w} _ => ⟨result, m.leave, Step.finish.reaches, fun _ => id⟩
  | fail failure => exact fun {m w} _ => ⟨_, _, Step.fail.reaches, fun _ => id⟩
  | inspect next ih =>
    intro m w h
    obtain ⟨result, m', hrest, hends⟩ := ih m (h.step .inspect)
    exact ⟨result, m', Step.inspect.to hrest, fun expected he => hends expected (he m)⟩
  | update change next ih =>
    intro m w h
    obtain ⟨result, m', hrest, hends⟩ := ih (h.step .update)
    exact ⟨result, m', Step.update.to hrest, hends⟩
  | call scope target arguments next ih =>
    intro m w h
    cases scope with
    | same =>
      have hcall := h.step .callSame
      obtain ⟨result, m', hrest, hends⟩ := ih _ ((hcall.step hcall.call).step .goOn)
      exact ⟨result, m', Step.callSame.to (hcall.call.to (Step.goOn.to hrest)),
        fun expected he => hends expected (he _)⟩
    | fresh =>
      obtain ⟨fuel, e, hfresh⟩ := h.returns _ _ _ _ _ (.refl _)
      obtain ⟨result, m', hrest, hends⟩ := ih e.1 (h.step (.callFresh hfresh))
      exact ⟨result, m', (Step.callFresh hfresh).to hrest, fun expected he => hends expected (he _)⟩

theorem control_ends {control : Control} {w : List Waiting} (h : Interrupted env ⟨control, w⟩) :
    ∃ result m, Reaches env ⟨control, w⟩ ⟨.answer result m, w⟩ := by
  cases control with
  | call c => exact ⟨_, _, h.call.reaches⟩
  | frame r s m => exact frame_ends _ rfl h
  | host program m =>
    obtain ⟨result, m', hreaches, -⟩ := host_ends h
    exact ⟨result, m', hreaches⟩
  | answer result m => exact ⟨result, m, .refl _⟩

/-- What waits goes on and ends too, one after another. -/
theorem ends (w : List Waiting) : ∀ {control : Control}, Interrupted env ⟨control, w⟩ →
    ∃ result m, Reaches env ⟨control, w⟩ ⟨.answer result m, []⟩ := by
  induction w with
  | nil => exact control_ends
  | cons x w ih =>
    intro control h
    obtain ⟨result, m, hreaches⟩ := control_ends h
    obtain ⟨result', m', hrest⟩ := ih ((h.reaches hreaches).step .goOn)
    exact ⟨result', m', hreaches.trans (Step.goOn.to hrest)⟩

/-- The trap of an interrupt is passed on. -/
theorem relayed {rest : List Waiting} (relays : List Waiting) : ∀ {m : Machine},
    Interrupted env ⟨.answer (.trap .interrupted) m, relays ++ rest⟩ →
      (∀ x ∈ relays, x.Relays) →
        ∃ m', Reaches env ⟨.answer (.trap .interrupted) m, relays ++ rest⟩
          ⟨.answer (.trap .interrupted) m', rest⟩ := by
  induction relays with
  | nil => exact fun {m} _ _ => ⟨m, .refl _⟩
  | cons x relays ih =>
    intro m h hrelays
    obtain ⟨hx, hrelays⟩ := List.forall_mem_cons.mp hrelays
    have hnext : ∃ m', Reaches env ⟨.answer (.trap .interrupted) m, x :: (relays ++ rest)⟩
        ⟨.answer (.trap .interrupted) m', relays ++ rest⟩ := by
      cases x with
      | frame r type s => exact ⟨_, (Step.abort rfl).reaches⟩
      | host next =>
        obtain ⟨result, m', hreaches, hends⟩ := host_ends (h.step .goOn)
        obtain rfl := hends _ hx
        exact ⟨m', Step.goOn.to hreaches⟩
      | link => exact ⟨_, Step.goOn.reaches⟩
    obtain ⟨m', hm'⟩ := hnext
    obtain ⟨m'', hm''⟩ := ih (h.reaches hm') hrelays
    exact ⟨m'', hm'.trans hm''⟩

end Interrupted

/-- The run is about to take a branch, or to make a call that neither the depth nor the checks of an
indirect call forbid. -/
inductive Attempts : Configuration → Prop
  | branch {r : Running} {s : FrameState} {m : Machine} {w : List Waiting}
      (hpaid : m.context.charge.1 = true) (h : r.TakesBranch s) : Attempts ⟨.frame r s m, w⟩
  | direct {r : Running} {s : FrameState} {m : Machine} {w : List Waiting} {func : Nat}
      (hpaid : m.context.charge.1 = true) (hdepth : m.context.depth < callStackLimit)
      (h : r.instruction s.pc = .call func) : Attempts ⟨.frame r s m, w⟩
  | indirect {r : Running} {s : FrameState} {m : Machine} {w : List Waiting} {type : Nat}
      {element : TableElement} (hpaid : m.context.charge.1 = true)
      (hdepth : m.context.depth < callStackLimit) (h : r.instruction s.pc = .callIndirect type)
      (helement : m.store.elementAt? r.inst s.frame.peek.index = some (some element))
      (htype : m.store.typeAt? r.inst type = m.store.functionType? element.target) :
      Attempts ⟨.frame r s m, w⟩
  | call {c : Call} {w : List Waiting} (hdepth : c.machine.context.depth < callStackLimit) :
      Attempts ⟨.call c, w⟩

/-- A branch that is taken ends its frame. -/
theorem turn_takesBranch (obs : Observers) {r : Running} {s : FrameState} {m : Machine}
    (hflag : m.interruptRequested = true) (hpaid : m.context.charge.1 = true)
    (h : r.TakesBranch s) :
    turn obs r s m = .done (.trap .interrupted) (reached r s m obs).2 := by
  have hreached := (reached_interruptRequested obs r s m).trans hflag
  rw [turn_paid obs hpaid]
  unfold Running.TakesBranch at h
  unfold step
  split at h
  · next hi =>
    rw [hi]
    dsimp only
    rw [branch_interrupted hreached]
    rfl
  · next hi =>
    rw [hi]
    dsimp only
    rw [if_pos h, branch_interrupted hreached]
    rfl
  · next hi =>
    obtain ⟨target, htarget⟩ := Option.isSome_iff_exists.mp h
    rw [hi]
    dsimp only
    rw [htarget]
    dsimp only
    rw [branch_interrupted hreached]
    rfl
  · cases h

/-- What is attempted under an interrupt traps. -/
theorem Attempts.answered {κ : Configuration} (h : κ.Attempts) (hκ : κ.Interrupted env) :
    ∃ m, Reaches env κ ⟨.answer (.trap .interrupted) m, κ.waiting⟩ := by
  cases h with
  | branch hpaid h =>
    exact ⟨_, (Step.done (turn_takesBranch env.toObservers hκ.flag hpaid h)).reaches⟩
  | @direct r s m w func hpaid hdepth h =>
    have hturn := turn_paid env.toObservers hpaid (r := r) (s := s)
    rw [h] at hturn
    have hanswer := hκ.wait hturn
    rw [Machine.refusal_of_lt hdepth] at hanswer
    exact ⟨_, hanswer⟩
  | @indirect r s m w type element hpaid hdepth h helement htype =>
    have hturn := turn_paid env.toObservers hpaid (r := r) (s := s)
    rw [h, step_callIndirect, reached_store, helement] at hturn
    dsimp only at hturn
    rw [if_pos htype] at hturn
    have hanswer := hκ.wait hturn
    rw [Machine.refusal_of_lt hdepth] at hanswer
    exact ⟨_, hanswer⟩
  | call hdepth =>
    have hstep := hκ.call
    rw [Machine.refusal_of_lt hdepth] at hstep
    exact ⟨_, hstep.reaches⟩

end Configuration

end

open WasmEngine.Configuration

/-- What an interrupt makes of the run of a call, from a configuration on. -/
structure Call.StopsFrom (env : Environment) (c : Call) (κ : Configuration) : Prop where
  bounded : ∀ l κ', Passes env κ l κ' → executed l + κ'.ahead ≤ κ.ahead
  forward : ∀ κ', Reaches env κ κ' →
    Relation.ReflTransGen OpenFrame.Advances κ.frames κ'.frames
  refused : ∀ c' w, Reaches env κ ⟨.call c', w⟩ → ¬ c'.Entered env
  /-- A branch that is taken ends its frame. -/
  ended : ∀ r s m w, Reaches env κ ⟨.frame r s m, w⟩ → m.context.charge.1 = true →
    r.TakesBranch s → ∃ m', Step env ⟨.frame r s m, w⟩ ⟨.answer (.trap .interrupted) m', w⟩
  returns : ∃ result m, Reaches env κ ⟨.answer result m, []⟩ ∧
    ∃ fuel, c.answer env fuel = some (result, m)
  /-- What is attempted ends all that waits with a trap, up to a host function that does not pass it
  on. Frames and imported functions always do. -/
  raised : ∀ κ', Reaches env κ κ' → κ'.Attempts → ∀ relays rest, κ'.waiting = relays ++ rest →
    (∀ x ∈ relays, x.Relays) → ∃ m, Reaches env κ' ⟨.answer (.trap .interrupted) m, rest⟩
  interrupted : ∀ κ', Reaches env κ κ' → κ'.Attempts → (∀ x ∈ κ'.waiting, x.Relays) →
    ∃ fuel m, c.answer env fuel = some (.trap .interrupted, m)

/-- An interrupt stops every run. From a configuration on in which it is requested and stays so, no
call is entered and no branch goes on, the open frames move forward only and run no more
instructions than they have ahead, and the call returns. A branch or a call that is attempted raises
a trap, which is the result if the host functions that wait pass it on. A call that finds the
interrupt requested changes nothing. -/
theorem interrupt_stops_run (env : Environment) :
    (∀ (c : Call) (κ : Configuration), Reaches env c.start κ → κ.Interrupted env →
      c.StopsFrom env κ) ∧
    ∀ c : Call, c.machine.context.depth < callStackLimit → c.machine.interruptRequested = true →
      ∀ fuel, c.answer env (fuel + 1) = some (.trap .interrupted, c.machine) := by
  constructor
  · intro c κ hreached h
    have hraised : ∀ κ', Reaches env κ κ' → κ'.Attempts → ∀ relays rest,
        κ'.waiting = relays ++ rest → (∀ x ∈ relays, x.Relays) →
          ∃ m, Reaches env κ' ⟨.answer (.trap .interrupted) m, rest⟩ := by
      intro κ' hκ' hattempts relays rest hwaiting hrelays
      obtain ⟨m, hm⟩ := hattempts.answered (h.reaches hκ')
      rw [hwaiting] at hm
      obtain ⟨m', hm'⟩ := ((h.reaches hκ').reaches hm).relayed relays hrelays
      exact ⟨m', hm.trans hm'⟩
    constructor
    · exact fun l κ' hl => (h.passes hl).2
    · exact fun κ' ⟨l, hl⟩ => (h.passes hl).1
    · exact fun c' w hc' hentered => hentered _ (Call.plan_of_interrupted (h.reaches hc').flag)
    · exact fun r s m w hframe hpaid hbranch =>
        ⟨_, .done (turn_takesBranch env.toObservers (h.reaches hframe).flag hpaid hbranch)⟩
    · obtain ⟨result, m, hends⟩ := Interrupted.ends κ.waiting h
      exact ⟨result, m, hends, answer_iff_reaches.mpr (hreached.trans hends)⟩
    · exact hraised
    · intro κ' hκ' hattempts hrelays
      obtain ⟨m, hm⟩ := hraised κ' hκ' hattempts κ'.waiting [] (List.append_nil _).symm hrelays
      obtain ⟨fuel, ha⟩ := answer_iff_reaches.mpr ((hreached.trans hκ').trans hm)
      exact ⟨fuel, m, ha⟩
  · intro c hdepth hflag fuel
    rw [Call.answer_succ, Call.plan_of_interrupted hflag, Machine.refusal_of_lt hdepth]

def interruptingHost : HostFunction := fun _ =>
  .update (fun m => { m with interruptFlag := true }) (.finish .void)

def innerLoop : Code := { instructions := #[.call 0, .loop, .br ⟨1, 0⟩ 0, .end_] }

def outerLoop : Code := { instructions := #[.call 1, .br ⟨0, 0⟩ 0, .end_] }

/-- The host function sets the flag. An endless loop calls it first, and another one calls that. -/
def loopingStore : Store where
  instances := #[
    { functions := #[⟨{}, "interrupt", 0, .imported (.host 0 0)⟩,
        ⟨{}, "inner", 1, .defined innerLoop none⟩, ⟨{}, "outer", 2, .defined outerLoop none⟩] }]

/-- The interrupt finds two frames open that have five instructions ahead. Two of them are run: the
branch is taken, and its trap ends both frames. -/
theorem interrupted_loops_stop :
    let env : Environment := { host := fun _ => interruptingHost }
    let m (depth : Nat) : Machine :=
      { store := loopingStore, context := { depth, interruptible := true }, interruptFlag := true }
    let outer : Call := ⟨⟨0, 2⟩, [], { m 0 with interruptFlag := false }⟩
    let body (name : String) (code : Code) : Running :=
      ⟨0, name, code, code.instructions, #[], false⟩
    let place (pc : Nat) : FrameState := ⟨pc, .enter [] 0 0, entryBlock⟩
    let waiting : Waiting := .frame (body "outer" outerLoop) {} (place 1)
    let κ : Configuration :=
      ⟨.host (.finish .void) (m 3), [.frame (body "inner" innerLoop) {} (place 1), waiting]⟩
    let inner (pc : Nat) : Configuration :=
      ⟨.frame (body "inner" innerLoop) (place pc) (m 2), [waiting]⟩
    Reaches env outer.start κ ∧ κ.Interrupted env ∧ κ.ahead = 5 ∧
      (∀ l κ', Passes env κ l κ' → executed l ≤ 5) ∧
      (∃ l, Passes env κ l ⟨.answer (.trap .interrupted) (m 0), []⟩ ∧ executed l = 2) ∧
      Reaches env κ (inner 2) ∧ (inner 2).Attempts ∧
      (∃ fuel n, outer.answer env fuel = some (.trap .interrupted, n)) ∧
      (Call.mk ⟨0, 2⟩ [] (m 0)).answer env 1 = some (.trap .interrupted, m 0) := by
  intro env m outer body place waiting κ inner
  have hreached : Reaches env outer.start κ :=
    (Step.enterFrame rfl).to <| (Step.wait rfl).to <| (Step.enterFrame rfl).to <|
      (Step.wait rfl).to <| (Step.enterHost rfl).to <| Step.update.reaches
  let l : List Configuration := [κ, ⟨.answer .void (m 2), κ.waiting⟩, inner 1, inner 2,
    ⟨.answer (.trap .interrupted) (m 1), [waiting]⟩]
  let final : Configuration := ⟨.answer (.trap .interrupted) (m 0), []⟩
  have hrun : Passes env κ l final :=
    .step .finish <| .step .goOn <| .step (.next rfl) <| .step (.done rfl) <| .step .goOn <| .refl _
  have hend : ∀ κ', ¬ Step env ⟨.answer (.trap .interrupted) (m 0), []⟩ κ' :=
    fun _ hstep => nomatch hstep
  have hpasses : ∀ κ', Reaches env κ κ' → κ' ∈ l ++ [final] :=
    fun κ' ⟨_, hl'⟩ => hrun.mem hend hl'
  have h : κ.Interrupted env := by
    refine ⟨fun κ' hκ' => ?_, fun _ _ _ _ _ hκ' => ?_, ?_⟩
    · have hall : (l ++ [final]).all (·.machine.interruptRequested) = true := rfl
      exact List.all_eq_true.mp hall κ' (hpasses κ' hκ')
    · have hall : (l ++ [final]).all (fun κ' =>
          match κ'.control with
          | .host (.call _ _ _ _) _ => false
          | _ => true) = true := rfl
      exact absurd (List.all_eq_true.mp hall _ (hpasses _ hκ')) nofun
    · exact List.forall_mem_cons.mpr ⟨by decide, List.forall_mem_singleton.mpr (by decide)⟩
  obtain ⟨hstops, hentry⟩ := interrupt_stops_run env
  have hstops := hstops outer κ hreached h
  have hinner : Reaches env κ (inner 2) :=
    Step.finish.to <| Step.goOn.to <| Step.reaches (.next rfl)
  have hattempts : (inner 2).Attempts := .branch rfl trivial
  have hahead : κ.ahead = 5 := rfl
  refine ⟨hreached, h, hahead, fun l' κ' hl' => ?_, ⟨l, hrun, rfl⟩, hinner, hattempts, ?_, ?_⟩
  · have hbound := hstops.bounded l' κ' hl'
    omega
  · exact hstops.interrupted _ hinner hattempts (List.forall_mem_singleton.mpr trivial)
  · exact hentry _ (by decide) rfl 0

end WasmEngine

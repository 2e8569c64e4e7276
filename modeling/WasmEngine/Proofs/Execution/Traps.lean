import WasmEngine.Embedding
import WasmEngine.Proofs.Linking.Starting

/-!
# Traps abort the chain of calls

A trap with a reason ends every call on the way to the outermost one, and each of them reports the
same reason: a frame makes no further move after a call that trapped. Conversely a call that ends
with a trap has one beneath it that raised it: a call that was refused, an instruction that trapped,
or a host function. A trap that a host function raises without a reason is not passed on by frames;
they go on behind the call.
-/
namespace WasmEngine
set_option autoImplicit false

section
variable {obs : Observers} {invoke : Invoke} {r : Running} {s : FrameState} {m n : Machine}
  {l : List Stage} {o : Option (ExecutionResult × Machine)} {kind : TrapKind}

/-- A frame that makes a call which traps with a reason ends there, with the same reason. -/
theorem FrameRun.aborts_of_call (h : FrameRun obs invoke r s m l o) (hk : kind ≠ .none) {c : Call}
    (hc : .call c ∈ l) (ha : invoke c.target c.arguments c.machine = some (.trap kind, n)) :
    o = some (.trap kind, n) ∧ l.getLast? = some (.call c) := by
  induction h with
  | cut => cases hc
  | @next _ _ _ _ l _ _ hrest ih =>
    rcases List.mem_cons.mp hc with hc | hc
    · cases hc
    · obtain ⟨ho, hlast⟩ := ih hc
      exact ⟨ho, by rw [List.getLast?_cons, hlast]; rfl⟩
  | done => simp at hc
  | unanswered _ hcall =>
    obtain rfl : c = _ := by simpa using hc
    cases hcall.symm.trans ha
  | aborted _ hcall =>
    obtain rfl : c = _ := by simpa using hc
    exact ⟨hcall.symm.trans ha, rfl⟩
  | resumed _ hcall hresult _ ih =>
    rcases List.mem_cons.mp hc with hc | hc
    · cases hc
    rcases List.mem_cons.mp hc with hc | hc
    · obtain rfl := Stage.call.inj hc
      obtain ⟨rfl, -⟩ := Prod.mk.inj (Option.some.inj (hcall.symm.trans ha))
      cases (aborts_eq_some.mpr ⟨rfl, hk⟩).symm.trans hresult
    · obtain ⟨ho, hlast⟩ := ih hc
      exact ⟨ho, by rw [List.getLast?_cons, List.getLast?_cons, hlast]; rfl⟩

/-- A frame that ends with a trap ran an instruction that trapped, or made a call that did. -/
theorem FrameRun.exists_trap (h : FrameRun obs invoke r s m l o) (ho : o = some (.trap kind, n)) :
    (∃ x, .instruction x ∈ l ∧ turn obs x.running x.state x.machine = .done (.trap kind) n) ∨
      ∃ c, .call c ∈ l ∧ invoke c.target c.arguments c.machine = some (.trap kind, n) := by
  induction h with
  | cut => cases ho
  | next _ _ ih =>
    obtain ⟨x, hx, ht⟩ | ⟨c, hc, ha⟩ := ih ho
    · exact .inl ⟨x, .tail _ hx, ht⟩
    · exact .inr ⟨c, .tail _ hc, ha⟩
  | done hturn =>
    obtain ⟨rfl, rfl⟩ := Prod.mk.inj (Option.some.inj ho)
    exact .inl ⟨_, .head _, hturn⟩
  | unanswered => cases ho
  | aborted _ hcall =>
    obtain ⟨hk, rfl⟩ := Prod.mk.inj (Option.some.inj ho)
    obtain rfl := ExecutionResult.trap.inj hk
    exact .inr ⟨_, .tail _ (.head _), hcall⟩
  | resumed _ _ _ _ ih =>
    obtain ⟨x, hx, ht⟩ | ⟨c, hc, ha⟩ := ih ho
    · exact .inl ⟨x, .tail _ (.tail _ hx), ht⟩
    · exact .inr ⟨c, .tail _ (.tail _ hc), ha⟩

/-- A frame that comes to an instruction which ends it ends with that result. -/
theorem FrameRun.done_of_instruction (h : FrameRun obs invoke r s m l o) {x : Moment}
    {result : ExecutionResult} (hx : .instruction x ∈ l)
    (ht : turn obs x.running x.state x.machine = .done result n) : o = some (result, n) := by
  induction h with
  | cut => cases hx
  | next hturn _ ih =>
    rcases List.mem_cons.mp hx with hx | hx
    · obtain rfl := Stage.instruction.inj hx
      cases hturn.symm.trans ht
    · exact ih hx
  | done hturn =>
    obtain rfl : x = _ := by simpa using hx
    obtain ⟨rfl, rfl⟩ := Turn.done.inj (hturn.symm.trans ht)
    rfl
  | unanswered hturn =>
    obtain rfl : x = _ := by simpa using hx
    cases hturn.symm.trans ht
  | aborted hturn =>
    obtain rfl : x = _ := by simpa using hx
    cases hturn.symm.trans ht
  | resumed hturn _ _ _ ih =>
    rcases List.mem_cons.mp hx with hx | hx
    · obtain rfl := Stage.instruction.inj hx
      cases hturn.symm.trans ht
    · exact ih ((List.mem_cons.mp hx).resolve_left nofun)

end

namespace Call

variable (env : Environment)

/-- Calls made one by another, with no host function in between, from the outermost call down. Each
call is run with one unit of fuel less than the one that makes it. -/
inductive Chain : Nat → Call → Nat → Call → Prop
  | refl (fuel : Nat) (c : Call) : Chain fuel c fuel c
  | cons {fuel fuel' : Nat} {c c' c'' : Call} (hhost : ¬ c.RunsHost env)
      (hc : .call c' ∈ c.stages env fuel) (h : Chain fuel c' fuel' c'') :
      Chain (fuel + 1) c fuel' c''

/-- The call ends with a trap that none of its own calls raised: it is refused, its frame comes to
an instruction that traps, or it is a host function that traps. -/
inductive Raises : Nat → Call → TrapKind → Prop
  | refused {fuel : Nat} {c : Call} {kind : TrapKind} (hp : c.plan env = .refuse kind) :
      Raises (fuel + 1) c kind
  | instruction {fuel : Nat} {c : Call} {kind : TrapKind} {r : Running} {s : FrameState}
      {x : Moment} {n : Machine} (hp : c.plan env = .frame r s)
      (hx : .instruction x ∈ c.stages env fuel)
      (hturn : turn env.toObservers x.running x.state x.machine = .done (.trap kind) n) :
      Raises (fuel + 1) c kind
  | host {fuel : Nat} {c : Call} {kind : TrapKind} {program : HostProgram} {n : Machine}
      (hp : c.plan env = .host program)
      (hrun : callHost (execute env fuel) program c.machine.enter = some (.trap kind, n)) :
      Raises (fuel + 1) c kind

variable {env} {fuel fuel' : Nat} {c c' : Call} {kind : TrapKind} {n : Machine}

/-- A call that makes a call which traps with a reason ends there, with the same reason. -/
theorem aborts_of_call (hhost : ¬ c.RunsHost env) (hc : .call c' ∈ c.stages env fuel)
    (hk : kind ≠ .none) (ha : c'.answer env fuel = some (.trap kind, n)) :
    c.answer env (fuel + 1) = some (.trap kind, n.leave) ∧
      (c.stages env fuel).getLast? = some (.call c') := by
  rw [answer_succ]
  unfold stages at hc ⊢
  cases hp : c.plan env with
  | refuse kind' =>
    rw [hp] at hc
    cases hc
  | link target =>
    rw [hp] at hc
    obtain rfl : c' = c.next target := by simpa using hc
    dsimp only
    rw [ha]
    exact ⟨rfl, rfl⟩
  | host program => exact absurd ⟨program, hp⟩ hhost
  | frame r s =>
    rw [hp] at hc
    obtain ⟨hrun, hlast⟩ := (frameRun env (execute env fuel) r fuel s _).aborts_of_call hk hc ha
    dsimp only
    rw [hrun]
    exact ⟨rfl, hlast⟩

/-- The reason of the innermost trap reaches the outermost call. -/
theorem Chain.answer_eq (h : Chain env fuel c fuel' c') (hk : kind ≠ .none)
    (ha : c'.answer env fuel' = some (.trap kind, n)) :
    ∃ n', c.answer env fuel = some (.trap kind, n') ∧ n'.store = n.store := by
  induction h with
  | refl => exact ⟨n, ha, rfl⟩
  | cons hhost hc _ ih =>
    obtain ⟨n', ha', hstore⟩ := ih ha
    exact ⟨n'.leave, (aborts_of_call hhost hc hk ha').1, hstore⟩

theorem Raises.answer_eq (h : c.Raises env fuel kind) :
    ∃ n, c.answer env fuel = some (.trap kind, n) := by
  cases h with
  | refused hp =>
    rw [answer_succ, hp]
    exact ⟨_, rfl⟩
  | instruction hp hx hturn =>
    rw [stages, hp] at hx
    rw [answer_succ, hp]
    dsimp only
    rw [(frameRun env _ _ _ _ _).done_of_instruction hx hturn]
    exact ⟨_, rfl⟩
  | host hp hrun =>
    rw [answer_succ, hp]
    dsimp only
    rw [hrun]
    exact ⟨_, rfl⟩

/-- A call that traps has one beneath it that raised the trap. -/
theorem exists_raiser (fuel : Nat) : ∀ {c : Call} {n : Machine},
    c.answer env fuel = some (.trap kind, n) →
      ∃ fuel' c', Chain env fuel c fuel' c' ∧ c'.Raises env fuel' kind := by
  induction fuel with
  | zero => exact fun h => by cases h
  | succ fuel ih =>
    intro c n h
    rw [answer_succ] at h
    cases hp : c.plan env with
    | refuse kind' =>
      rw [hp] at h
      obtain ⟨hk, -⟩ := Prod.mk.inj (Option.some.inj h)
      obtain rfl := ExecutionResult.trap.inj hk
      exact ⟨fuel + 1, c, .refl _ c, .refused hp⟩
    | link target =>
      rw [hp] at h
      obtain ⟨⟨result, n'⟩, ha, he⟩ := Option.map_eq_some_iff.mp h
      obtain ⟨rfl, -⟩ := Prod.mk.inj he
      obtain ⟨fuel', c', hchain, hraise⟩ := ih ha
      refine ⟨fuel', c', .cons ?_ ?_ hchain, hraise⟩
      · rintro ⟨program, hprogram⟩
        cases hp.symm.trans hprogram
      · rw [stages, hp]
        exact .head _
    | host program =>
      rw [hp] at h
      obtain ⟨⟨result, n'⟩, ha, he⟩ := Option.map_eq_some_iff.mp h
      obtain ⟨rfl, -⟩ := Prod.mk.inj he
      exact ⟨fuel + 1, c, .refl _ c, .host hp ha⟩
    | frame r s =>
      rw [hp] at h
      obtain ⟨⟨result, n'⟩, ha, he⟩ := Option.map_eq_some_iff.mp h
      obtain ⟨rfl, -⟩ := Prod.mk.inj he
      have hstages : c.stages env fuel =
          frameStages env.toObservers (execute env fuel) r fuel s c.machine.enter := by
        rw [stages, hp]
      obtain ⟨x, hx, hturn⟩ | ⟨c', hc, ha'⟩ := (frameRun env _ r fuel s _).exists_trap ha
      · exact ⟨fuel + 1, c, .refl _ c, .instruction hp (hstages ▸ hx) hturn⟩
      · obtain ⟨fuel', c'', hchain, hraise⟩ := ih ha'
        refine ⟨fuel', c'', .cons ?_ (hstages ▸ hc) hchain, hraise⟩
        rintro ⟨program, hprogram⟩
        cases hp.symm.trans hprogram

end Call

/-- Traps abort the whole chain of calls. A call that was made by an instruction, or that an imported
function passed on, and that traps with a reason, is the last thing its caller does, and the caller
ends with the same reason. So a call ends with a reason exactly if it heads a chain of calls whose
innermost one raised it, and no call ends with a trap, with or without a reason, that was not raised
beneath it. Instantiation reports the trap of the start function. -/
theorem traps_abort_chain (env : Environment) (fuel : Nat) :
    (∀ (c c' : Call) (kind : TrapKind) (n : Machine), ¬ c.RunsHost env →
      .call c' ∈ c.stages env fuel → c'.answer env fuel = some (.trap kind, n) → kind ≠ .none →
      c.answer env (fuel + 1) = some (.trap kind, n.leave) ∧
        (c.stages env fuel).getLast? = some (.call c')) ∧
    (∀ (c : Call) (kind : TrapKind), kind ≠ .none →
      ((∃ n, c.answer env fuel = some (.trap kind, n)) ↔
        ∃ fuel' c', Call.Chain env fuel c fuel' c' ∧ c'.Raises env fuel' kind)) ∧
    (∀ (c : Call) (kind : TrapKind) (n : Machine), c.answer env fuel = some (.trap kind, n) →
      ∃ fuel' c', Call.Chain env fuel c fuel' c' ∧ c'.Raises env fuel' kind) ∧
    ∀ (module : Module) (entities : List Entity) (config : EngineConfig) (m : Machine)
      (kind : TrapKind),
      (∃ m', instantiate env fuel module entities config m =
        some (.error (.startTrapped kind), m')) ↔
      ∃ a p start n, allocate m.store module entities config = .ok a ∧
        a.place (Module.importedGlobals m.store entities) = .ok p ∧ module.start = some start ∧
        (a.startCall config p m start).answer env fuel = some (.trap kind, n) := by
  refine ⟨fun c c' kind n hhost hc ha hk => Call.aborts_of_call hhost hc hk ha,
    fun c kind hk => ⟨fun ⟨n, ha⟩ => Call.exists_raiser fuel ha, ?_⟩,
    fun c kind n ha => Call.exists_raiser fuel ha, fun module entities config m kind => ⟨?_, ?_⟩⟩
  · rintro ⟨fuel', c', hchain, hraise⟩
    obtain ⟨n, ha⟩ := hraise.answer_eq
    obtain ⟨n', ha', -⟩ := hchain.answer_eq hk ha
    exact ⟨n', ha'⟩
  · rintro ⟨m', h⟩
    cases instantiate_ends h with
    | trapped ha hp hs hc => exact ⟨_, _, _, _, ha, hp, hs, hc⟩
  · rintro ⟨a, p, start, n, ha, hp, hs, hc⟩
    exact ⟨_, instantiate_trapped ha hp hs hc⟩

/-- One instance imports a function of the host and calls it; another imports the function that does
so, calls it and goes on to return a number. -/
def relayStore : Store where
  instances := #[
    { functions := #[⟨{}, "host", 0, .imported (.host 0 0)⟩,
        ⟨{}, "relay", 1, .defined { instructions := #[.call 0, .end_] } none⟩] },
    { functions := #[⟨{}, "relay", 0, .imported (.guest ⟨0, 1⟩)⟩,
        ⟨⟨[], [.i32]⟩, "main", 1, .defined
          { instructions := #[.call 0, .const .i32 7, .end_], maxHeight := 1 } none⟩] }]

theorem relay_traps :
    let env : Environment := { host := fun _ => HostFunction.constant (.trap .integerOverflow) }
    let main : Call := ⟨⟨1, 1⟩, [], { store := relayStore }⟩
    TrapKind.integerOverflow ≠ .none ∧
      (∃ c', Call.Chain env 10 main 7 c' ∧ c'.Raises env 7 .integerOverflow) ∧
      ∃ n, main.answer env 10 = some (.trap .integerOverflow, n) := by
  intro env main
  let imported : Call := ⟨⟨1, 0⟩, [], main.machine.enter⟩
  let relay : Call := ⟨⟨0, 1⟩, [], imported.machine.enter⟩
  let host : Call := ⟨⟨0, 0⟩, [], relay.machine.enter⟩
  have hk : TrapKind.integerOverflow ≠ .none := by decide
  have hmain : .call imported ∈ main.stages env 9 := .tail _ (.head _)
  have himported : .call relay ∈ imported.stages env 8 := .head _
  have hrelay : .call host ∈ relay.stages env 7 := .tail _ (.head _)
  have hchain : Call.Chain env 10 main 7 host := by
    refine .cons ?_ hmain (.cons ?_ himported (.cons ?_ hrelay (.refl _ _)))
    all_goals
      rintro ⟨program, hp⟩
      cases hp
  have hraise : host.Raises env 7 .integerOverflow := .host rfl rfl
  exact ⟨hk, ⟨host, hchain, hraise⟩,
    ((traps_abort_chain env 10).2.1 main _ hk).mpr ⟨7, host, hchain, hraise⟩⟩

/-- A trap without a reason aborts nothing: the frame goes on behind the call. -/
theorem relay_ignores_unnamed_trap :
    let env : Environment := { host := fun _ => HostFunction.constant (.trap .none) }
    let relay : Call := ⟨⟨0, 1⟩, [], { store := relayStore }⟩
    let main : Call := ⟨⟨1, 1⟩, [], { store := relayStore }⟩
    (∃ c', .call c' ∈ relay.stages env 9 ∧ ∃ n, c'.answer env 9 = some (.trap .none, n)) ∧
      (∃ n, relay.answer env 10 = some (.void, n)) ∧
      ∃ n, main.answer env 10 = some (.value 7, n) := by
  intro env relay main
  let host : Call := ⟨⟨0, 0⟩, [], relay.machine.enter⟩
  have hrelay : .call host ∈ relay.stages env 9 := .tail _ (.head _)
  have hanswer : ∃ n, host.answer env 9 = some (.trap .none, n) := ⟨_, rfl⟩
  exact ⟨⟨host, hrelay, hanswer⟩, ⟨_, rfl⟩, _, rfl⟩

end WasmEngine

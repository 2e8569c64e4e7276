import WasmEngine.Proofs.ControlFlow.Exactness
import WasmEngine.Proofs.Instrumentation.PlainTrace

/-!
# The edges of a frame

The block entered last is kept by the frame, so neither nested calls nor failing listeners touch it.
From one visit of a frame to the next it is the block entered at the first of them, if one begins
there. The edges of a frame hence form a chain through the blocks that it enters, from the entry on,
and the chain is a path through the control-flow graph.
-/
namespace WasmEngine
set_option autoImplicit false

/-- The block that a turn leaves as the one entered last. -/
theorem turn_previous (obs : Observers) (r : Running) (s : FrameState) (m : Machine) :
    match turn obs r s m with
    | .next s' _ | .wait _ _ s' _ => m.context.charge.1 = true ∧
        s'.previous = (reportAt obs r s (m.withContext m.context.charge.2)).1.previous
    | .done _ _ => True := by
  unfold turn
  rcases m.context.charge with ⟨_ | _, context⟩
  · trivial
  · dsimp only
    cases step obs r.inst r.code (r.instruction s.pc) (s.pc + 1) s.frame
      (reportAt obs r s (m.withContext context)).2 with
    | goto pc frame m => exact ⟨rfl, rfl⟩
    | leave frame m => trivial
    | trap kind m => trivial
    | call target type frame m => exact ⟨rfl, rfl⟩

section
variable {obs : Observers} {configs : InstanceId → EngineConfig}

/-- Between two visits of a frame an instruction was run, and the frame kept its block. -/
theorem precedes_previous {v v' : Visit} (h : v.Precedes obs v') (hv : v.Instrumented configs) :
    v.dispatched = true ∧ v'.state.previous = (configs v.function.inst).nextBlock v.running.name
      v.running.code v.state.pc v.state.previous := by
  have hturn := turn_previous obs v.running v.state v.machine
  rw [hv.running.previous_eq] at hturn
  cases h with
  | next _ _ ht =>
    rw [ht] at hturn
    exact hturn
  | call _ _ ht hs =>
    rw [ht] at hturn
    rw [hs]
    exact hturn

variable (configs) in
/-- The listener is told of the edges of the frame. -/
def Visit.covers (listener : Nat) (v : Visit) : Bool :=
  (configs v.function.inst).covers listener .edges v.running.name

variable {listener : Nat}

variable (configs listener) in
theorem entry?_eq (v : Visit) : v.entry? configs listener =
    if v.dispatched && v.covers configs listener then v.running.code.entered? v.state.pc
    else none := by
  unfold Visit.entry? Visit.dispatch?
  cases v.dispatched with
  | false => rfl
  | true =>
    rw [if_pos rfl, Bool.true_and]
    cases hget : v.running.code.instructions[v.state.pc]? with
    | none =>
      have hsize : ¬ v.state.pc < v.running.code.size :=
        Nat.not_lt.mpr (Array.getElem?_eq_none_iff.mp hget)
      rw [Code.entered?_eq, if_neg fun hmem => hsize (v.running.code.mem_blockStarts.mp hmem).1]
      split <;> rfl
    | some instr =>
      rw [Option.map_some, Option.filter_some]
      show Option.bind (if v.covers configs listener then _ else _) _ = _
      split <;> rfl

/-- Frames keep their function and their body. -/
theorem chain_const (l : List Visit) : ∀ v : Visit, (v :: l).IsChain (Visit.Precedes obs) →
    ∀ w ∈ v :: l, w.function = v.function ∧ w.running = v.running := by
  induction l with
  | nil =>
    intro v _ w hw
    rw [List.mem_singleton.mp hw]
    exact ⟨rfl, rfl⟩
  | cons v' rest ih =>
    intro v hchain w hw
    obtain ⟨hprec, hrest⟩ := List.isChain_cons_cons.mp hchain
    rcases List.mem_cons.mp hw with rfl | hw
    · exact ⟨rfl, rfl⟩
    · obtain ⟨hf, hr⟩ := ih v' hrest w hw
      exact ⟨hf.trans hprec.function_eq, hr.trans hprec.running_eq⟩

/-- A frame for which no tick is left ends. -/
theorem eq_nil_of_not_dispatched {v : Visit} {l : List Visit}
    (hchain : (v :: l).IsChain (Visit.Precedes obs)) (hv : v.Instrumented configs)
    (hdisp : v.dispatched = false) : l = [] := by
  cases l with
  | nil => rfl
  | cons w rest =>
    have hrun := (precedes_previous (List.isChain_cons_cons.mp hchain).1 hv).1
    rw [hdisp] at hrun
    cases hrun

/-- The edges of a frame that has entered the block `p` last: each begins where the one before it
ends. -/
theorem edges_eq_zip (l : List Visit) (hinst : ∀ v ∈ l, v.Instrumented configs)
    (hcovers : ∀ v ∈ l, v.covers configs listener = true)
    (hchain : l.IsChain (Visit.Precedes obs)) :
    ∀ p, (∀ v ∈ l.head?, v.state.previous = p) →
      l.filterMap (fun v => (v.entry? configs listener).map fun b => (v.state.previous, b)) =
        (p :: l.filterMap (Visit.entry? configs listener)).zip
          (l.filterMap (Visit.entry? configs listener)) := by
  induction l with
  | nil => exact fun _ _ => rfl
  | cons v rest ih =>
    intro p hp
    obtain rfl : v.state.previous = p := hp v rfl
    obtain ⟨hhead, hrest⟩ := List.isChain_cons.mp hchain
    have hcv := hcovers v (List.mem_cons_self ..)
    have ih' := ih (fun w hw => hinst w (List.mem_cons_of_mem _ hw))
      (fun w hw => hcovers w (List.mem_cons_of_mem _ hw)) hrest
    -- The next visit finds the block entered here, if one begins here.
    have hnext : ∀ w ∈ rest.head?, w.state.previous =
        (v.entry? configs listener).getD v.state.previous := by
      intro w hw
      obtain ⟨hdisp, hprev⟩ := precedes_previous (hhead w hw) (hinst v (List.mem_cons_self ..))
      rw [hprev, entry?_eq, hdisp, hcv, EngineConfig.nextBlock,
        if_pos (EngineConfig.coverageOf_of_covers hcv)]
      rfl
    cases he : v.entry? configs listener with
    | none =>
      rw [he] at hnext
      rw [List.filterMap_cons_none he, List.filterMap_cons_none (by rw [he]; rfl)]
      exact ih' _ hnext
    | some b =>
      rw [he] at hnext
      rw [List.filterMap_cons_some he,
        List.filterMap_cons_some (b := (v.state.previous, b)) (by rw [he]; rfl), ih' b hnext]
      rfl

/-- From the block that a visit lies in, the blocks that the frame enters afterwards are reached
along the graph. -/
theorem entries_chain {code : Code} (hw : code.WellFormed) (l : List Visit) :
    ∀ v : Visit, (∀ w ∈ v :: l, w.Instrumented configs) →
      (∀ w ∈ v :: l, w.covers configs listener = true) → v.running.code = code →
      v.state.pc < code.size → (v :: l).IsChain (Visit.Precedes obs) →
      (code.blockOf v.state.pc :: l.filterMap (Visit.entry? configs listener)).IsChain
        fun b b' => b' ∈ (Graph.build code).successors b := by
  induction l with
  | nil => exact fun v _ _ _ _ _ => .singleton _
  | cons v' rest ih =>
    intro v hinst hcovers hcode hlt hchain
    subst hcode
    obtain ⟨hprec, hrest⟩ := List.isChain_cons_cons.mp hchain
    have hmem : ∀ {w}, w ∈ v' :: rest → w ∈ v :: v' :: rest := List.mem_cons_of_mem _
    have hflows := precedes_flows hprec (hinst v (List.mem_cons_self ..)).running.faithful hw hlt
    have hcode' : v'.running.code = v.running.code := by rw [hprec.running_eq]
    have ih' := ih v' (fun w h => hinst w (hmem h)) (fun w h => hcovers w (hmem h)) hcode'
      hflows.lt_size hrest
    have hentry := entry?_eq configs listener v'
    rw [hcovers v' (hmem (List.mem_cons_self ..)), hcode', Code.entered?_eq, Bool.and_true] at hentry
    cases hdisp : v'.dispatched with
    | false =>
      -- No tick is left, and the frame ends here.
      rw [hdisp] at hentry
      rw [List.filterMap_cons_none hentry,
        eq_nil_of_not_dispatched hrest (hinst v' (hmem (List.mem_cons_self ..))) hdisp]
      exact .singleton _
    | true =>
      rw [hdisp, if_pos rfl] at hentry
      rcases hflows.blockOf with ⟨hno, hsame⟩ | ⟨hyes, hsucc⟩
      · rw [if_neg hno] at hentry
        rw [List.filterMap_cons_none hentry, ← hsame]
        exact ih'
      · rw [if_pos hyes] at hentry
        rw [List.filterMap_cons_some hentry]
        exact .cons_cons hsucc ih'

/-- What a frame enters first is block 0; nothing is entered in a body without instructions. -/
theorem entries_of_entered {v : Visit} {rest : List Visit} (hentered : v.Entered)
    (hcovers : v.covers configs listener = true) (hv : v.Instrumented configs)
    (hchain : (v :: rest).IsChain (Visit.Precedes obs)) :
    (v :: rest).filterMap (Visit.entry? configs listener) = [] ∨
      0 < v.running.code.size ∧ (v :: rest).filterMap (Visit.entry? configs listener) =
        0 :: rest.filterMap (Visit.entry? configs listener) := by
  have hentry := entry?_eq configs listener v
  rw [hcovers, hentered.1, Code.entered?_eq, Bool.and_true] at hentry
  cases hdisp : v.dispatched with
  | false =>
    rw [hdisp] at hentry
    rw [List.filterMap_cons_none hentry, eq_nil_of_not_dispatched hchain hv hdisp]
    exact .inl rfl
  | true =>
    rw [hdisp, if_pos rfl] at hentry
    rcases Nat.eq_zero_or_pos v.running.code.size with hsize | hsize
    · refine .inl (List.filterMap_eq_nil_iff.mpr fun w hw => ?_)
      have hno : w.state.pc ∉ w.running.code.blockStarts := by
        intro hmem
        have hlt := (w.running.code.mem_blockStarts.mp hmem).1
        rw [(chain_const rest v hchain w hw).2] at hlt
        omega
      rw [entry?_eq, Code.entered?_eq, if_neg hno]
      split <;> rfl
    · rw [if_pos (v.running.code.zero_mem_blockStarts hsize), Code.blockOf_zero hsize] at hentry
      exact .inr ⟨hsize, List.filterMap_cons_some hentry⟩

/-- The edges of a whole frame: a chain from the entry through the blocks that it enters, of which
the first is block 0 and each later one is a successor of the one before it. -/
theorem frame_edges (listener : Nat) {l : List Visit} (h : FrameTrace obs l)
    (hinst : ∀ v ∈ l, v.Instrumented configs) :
    l.filterMap (fun v => (v.entry? configs listener).map fun b => (v.state.previous, b)) =
        (entryBlock :: l.filterMap (Visit.entry? configs listener)).zip
          (l.filterMap (Visit.entry? configs listener)) ∧
      (∀ b ∈ (l.filterMap (Visit.entry? configs listener)).head?, b = 0) ∧
      ∀ v ∈ l, v.running.code.WellFormed → (l.filterMap (Visit.entry? configs listener)).IsChain
        fun b b' => b' ∈ (Graph.build v.running.code).successors b := by
  cases l with
  | nil => exact ⟨rfl, fun _ hb => (by cases hb), fun _ hv => (by cases hv)⟩
  | cons v rest =>
    have hconst := chain_const rest v h.chain
    have hcovers_eq : ∀ w ∈ v :: rest, w.covers configs listener = v.covers configs listener := by
      intro w hw
      rw [Visit.covers, (hconst w hw).1, (hconst w hw).2]
      rfl
    have hv := hinst v (List.mem_cons_self ..)
    have hentered := h.entry v rfl
    cases hcovers : v.covers configs listener with
    | false =>
      -- The listener is told of no edge of the frame.
      have hnone : ∀ w ∈ v :: rest, w.entry? configs listener = none := by
        intro w hw
        rw [entry?_eq, hcovers_eq w hw, hcovers, Bool.and_false]
        rfl
      rw [List.filterMap_eq_nil_iff.mpr hnone, List.filterMap_eq_nil_iff.mpr fun w hw => by
        rw [hnone w hw]
        rfl]
      exact ⟨rfl, fun _ hb => (by cases hb), fun _ _ _ => .nil⟩
    | true =>
      have hall : ∀ w ∈ v :: rest, w.covers configs listener = true :=
        fun w hw => (hcovers_eq w hw).trans hcovers
      refine ⟨edges_eq_zip _ hinst hall h.chain entryBlock fun w hw => ?_, ?_, fun w hw hwf => ?_⟩
      · exact (h.entry w hw).2
      · rcases entries_of_entered hentered hcovers hv h.chain with hnil | ⟨-, hcons⟩
        · rw [hnil]
          exact fun _ hb => (by cases hb)
        · rw [hcons]
          exact fun b hb => (Option.some.inj hb).symm
      · rw [(hconst w hw).2] at hwf ⊢
        rcases entries_of_entered hentered hcovers hv h.chain with hnil | ⟨hsize, hcons⟩
        · rw [hnil]
          exact .nil
        · have hchain := entries_chain hwf rest v hinst hall rfl
            (by rw [hentered.1]; exact hsize) h.chain
          rw [hentered.1, Code.blockOf_zero hsize] at hchain
          rw [hcons]
          exact hchain

end

end WasmEngine

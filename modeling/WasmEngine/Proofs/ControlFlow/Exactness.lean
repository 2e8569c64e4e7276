import WasmEngine.Proofs.ControlFlow.Flow
import WasmEngine.Proofs.Execution.Frames

/-!
# The control-flow graph is exact

Within a frame the interpreter only moves along the graph of the body, and every edge of the graph
is taken for some condition or selector. A block without successors is one after which the function
is not continued.
-/
namespace WasmEngine
set_option autoImplicit false

section
variable {obs : Observers} {code : Code}

/-- The next visit of a frame lies where the graph leads. -/
theorem precedes_flows {v v' : Visit} (h : v.Precedes obs v') (hr : v.running.Faithful)
    (hw : v.running.code.WellFormed) (hlt : v.state.pc < v.running.code.size) :
    (Graph.build v.running.code).Flows v.state.pc v'.state.pc := by
  have hi : v.running.code.instructions[v.state.pc]? = some (v.running.code.instructions[v.state.pc]) :=
    Array.getElem?_eq_getElem hlt
  have hfollows := turn_follows obs hw hr hi v.machine
  cases h with
  | next _ _ hturn =>
    rw [hturn] at hfollows
    cases hfollows with
    | next hpc => exact follow_flows hw hi hpc
  | call _ _ hturn hs =>
    rw [hturn] at hfollows
    cases hfollows with
    | wait hpc =>
      rw [hs]
      exact follow_flows hw hi hpc

/-- A move between two visits of a frame: inside the same body, and along its graph. -/
def Visit.Moves (code : Code) (v v' : Visit) : Prop :=
  v'.running = v.running ∧ (v.running.Faithful → v.running.code = code →
    (Graph.build code).Flows v.state.pc v'.state.pc)

/-- What one turn keeps carries over to the whole frame. -/
theorem chain_moves (hw : code.WellFormed) (l : List Visit) :
    ∀ v : Visit, (v.running.Faithful → v.running.code = code → v.state.pc < code.size) →
      (v :: l).IsChain (Visit.Precedes obs) → (v :: l).IsChain (Visit.Moves code) := by
  induction l with
  | nil => exact fun v _ _ => .singleton v
  | cons v' rest ih =>
    intro v hlt hchain
    obtain ⟨hprec, hrest⟩ := List.isChain_cons_cons.mp hchain
    have hmove : v.Moves code v' := by
      refine ⟨hprec.running_eq, fun hr hcode => ?_⟩
      subst hcode
      exact precedes_flows hprec hr hw (hlt hr rfl)
    refine .cons_cons hmove (ih v' (fun hr hcode => ?_) hrest)
    rw [hmove.1] at hr hcode
    exact (hmove.2 hr hcode).lt_size

theorem Code.WellFormed.size_pos (hw : code.WellFormed) : 0 < code.size := by
  have hlast := hw.last
  rw [Array.back?_eq_getElem?] at hlast
  have hlt := (Array.getElem?_eq_some_iff.mp hlast).1
  have hs : code.instructions.size = code.size := rfl
  omega

theorem frameTrace_moves (hw : code.WellFormed) {l : List Visit} (h : FrameTrace obs l) :
    l.IsChain (Visit.Moves code) := by
  cases l with
  | nil => exact .nil
  | cons v rest =>
    refine chain_moves hw rest v (fun _ _ => ?_) h.chain
    rw [(h.entry v rfl).1]
    exact hw.size_pos

end

/-- The control-flow graph of a body is exact. Within a frame of a run, nested calls being part of
the instruction that makes them, each move goes to the next offset of the same block or from the
last offset of a block to the begin of a successor. For every successor of a block there is a
condition or selector, where one is taken, with which the last instruction goes on at its begin,
unless it traps. A block has no successors exactly when it ends with a return, an unreachable or the
end of the body. -/
theorem graph_exact (code : Code) (hw : code.WellFormed) :
    (∀ env fuel path target arguments m,
      execute env fuel target arguments m =
          (observe env fuel path target arguments m).outcome ∧
        ∀ q, (∀ v ∈ (visitsAt q (observe env fuel path target arguments m).visits).head?,
            v.state.pc = 0) ∧
          (visitsAt q (observe env fuel path target arguments m).visits).IsChain fun v v' =>
            v'.running = v.running ∧ (v.running.Faithful → v.running.code = code →
              (Graph.build code).Flows v.state.pc v'.state.pc)) ∧
      ∀ b ∈ (Graph.build code).blocks, ∃ instr, code.instructions[b.stop - 1]? = some instr ∧
        ((Graph.build code).successors b.id = [] ↔
          instr = .return_ ∨ instr = .unreachable ∨ instr = .end_ ∧ b.stop = code.size) ∧
        ∀ k ∈ (Graph.build code).successors b.id, ∃ b' ∈ (Graph.build code).blocks, b'.id = k ∧
          ∃ c : Cell, c.wellFormed .i32 = true ∧
            ∀ (obs : Observers) (r : Running) (s : FrameState) (m : Machine),
              r.code = code → r.Faithful → s.pc = b.stop - 1 →
              (instr.selects = true → s.frame.peek = c) →
              (turn obs r s m).Follows (some b'.start) := by
  refine ⟨fun env fuel path target arguments m => ?_, fun b hb => ?_⟩
  · refine ⟨execute_eq_observe env fuel path target arguments m, fun q => ?_⟩
    have htrace := (observe_traced env fuel path target arguments m).frames q
    exact ⟨fun v hv => (htrace.entry v hv).1, frameTrace_moves hw htrace⟩
  obtain ⟨hstart, hstop⟩ := Graph.mem_blocks hb
  obtain ⟨instr, hi⟩ := Code.exists_lastInstruction hstart
  have hlt := Code.start_lt_blockStop hstart
  have hmem := Array.mem_of_getElem? hi
  have hsucc := Code.successors_eq_exits hw hstart hi
  rw [hstop]
  refine ⟨instr, hi, ?_, fun k hk => ?_⟩
  · rw [hsucc, List.map_eq_nil_iff]
    refine Code.exits_eq_nil_iff fun table arity he => ?_
    exact (hw.tables table arity (he ▸ hmem)).1
  · rw [hsucc] at hk
    obtain ⟨o, ho, rfl⟩ := List.mem_map.mp hk
    have hbegin := Code.exits_subset_blockStarts hw hstart hi ho
    obtain ⟨b', hb', hid, hbs, -⟩ := Graph.exists_block (Code.blockOf_start hbegin)
    obtain ⟨c, hc, hfollow⟩ := Code.exists_follow_of_mem_exits
      (fun table arity he => (hw.tables table arity (he ▸ hmem)).2) ho
    refine ⟨b', hb', hid, c, hc, fun obs r s m hcode hr hpc hpeek => ?_⟩
    subst hcode
    rw [← hpc] at hi
    have ht := turn_follows obs hw hr hi m
    rw [show s.pc + 1 = r.code.blockStop b.id by omega, hfollow s.frame.peek hpeek] at ht
    rw [hbs]
    exact ht

/-- A loop whose end is reached by a table: one case goes back, one leaves, the default goes on. -/
def tableLoop : Code where
  instructions := #[.loop, .localGet 0, .brTable 0 0, .localGet 0, .if_ 6, .return_, .nop, .end_,
    .end_]
  branchTables := [[⟨0, 0⟩, ⟨8, 0⟩, ⟨3, 0⟩]]
  maxHeight := 1

theorem tableLoop_graph_exact :
    tableLoop.WellFormed ∧ (Graph.build tableLoop).successors 1 = [2, 3] ∧
      ∀ q, (visitsAt q (observe {} 9 [] ⟨0, 0⟩ [2] { store := {
          instances := #[{ functions := #[⟨⟨[.i32], []⟩, "f", 0, .defined tableLoop none⟩] }] } }
          ).visits).IsChain fun v v' =>
        v'.running = v.running ∧ (v.running.Faithful → v.running.code = tableLoop →
          (Graph.build tableLoop).Flows v.state.pc v'.state.pc) := by
  have hw : tableLoop.WellFormed := by
    refine ⟨by decide, fun table arity h => ?_, rfl⟩
    have ht : table = 0 ∧ arity = 0 := by simpa [tableLoop] using h
    obtain ⟨rfl, -⟩ := ht
    decide
  exact ⟨hw, by decide, fun q => (((graph_exact tableLoop hw).1 {} 9 [] ⟨0, 0⟩ [2] _).2 q).2⟩

end WasmEngine

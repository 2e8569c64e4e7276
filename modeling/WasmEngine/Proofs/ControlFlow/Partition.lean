import WasmEngine.Proofs.ControlFlow.Exactness

/-!
# The partition of a body

The blocks of a graph lie one behind another and make up the whole body, so each offset belongs to
one of them, and a lookup by offset finds it. They are as long as can be: a block begins only where
something branches to or where the instruction before transfers control.
-/
namespace WasmEngine
set_option autoImplicit false

/-- The instruction ends a straight run: what follows it is not always what is executed next. -/
inductive Instruction.Transfers : Instruction → Prop
  | unreachable : Transfers .unreachable
  | if_ (otherwise : Nat) : Transfers (.if_ otherwise)
  | else_ (resume : Nat) : Transfers (.else_ resume)
  | br (target : BranchTarget) (arity : Nat) : Transfers (.br target arity)
  | brIf (target : BranchTarget) (arity : Nat) : Transfers (.brIf target arity)
  | brTable (table arity : Nat) : Transfers (.brTable table arity)
  | return_ : Transfers .return_

theorem Instruction.transfersControl_iff (instr : Instruction) :
    instr.transfersControl = true ↔ instr.Transfers := by
  constructor
  · intro h
    cases instr with
    | unreachable => exact .unreachable
    | if_ n => exact .if_ n
    | else_ n => exact .else_ n
    | br t arity => exact .br t arity
    | brIf t arity => exact .brIf t arity
    | brTable table arity => exact .brTable table arity
    | return_ => exact .return_
    | _ => cases h
  · rintro ⟨⟩ <;> rfl

namespace Code

/-- The instruction at `p` can branch to the offset `o`. -/
inductive BranchesTo (code : Code) (p o : Nat) : Prop
  | br {target : BranchTarget} {arity : Nat} (h : code.instructions[p]? = some (.br target arity))
      (ho : target.offset = o)
  | brIf {target : BranchTarget} {arity : Nat}
      (h : code.instructions[p]? = some (.brIf target arity)) (ho : target.offset = o)
  | if_ (h : code.instructions[p]? = some (.if_ o))
  | else_ (h : code.instructions[p]? = some (.else_ o))
  | brTable {table arity : Nat} {entries : List BranchTarget} {target : BranchTarget}
      (h : code.instructions[p]? = some (.brTable table arity))
      (ht : code.branchTables[table]? = some entries) (hmem : target ∈ entries)
      (ho : target.offset = o)

/-- A body that ends with an end and whose branches stay inside it. -/
structure Closed (code : Code) : Prop where
  targets : ∀ p o, code.BranchesTo p o → o < code.size
  last : code.instructions.back? = some .end_

/-- Where a block must begin: at the begin of the body, where something branches to, and behind an
instruction that transfers control. -/
inductive Begins (code : Code) : Nat → Prop
  | first : Begins code 0
  | target {p o : Nat} (h : code.BranchesTo p o) : Begins code o
  | behind {p : Nat} {instr : Instruction} (h : code.instructions[p]? = some instr)
      (ht : instr.Transfers) : Begins code (p + 1)

variable {code : Code}

theorem branchesTo_iff {p o : Nat} :
    code.BranchesTo p o ↔ ∃ instr, code.instructions[p]? = some instr ∧ o ∈ code.targets instr := by
  constructor
  · intro h
    cases h with
    | br h ho => exact ⟨_, h, List.mem_singleton.mpr ho.symm⟩
    | brIf h ho => exact ⟨_, h, List.mem_singleton.mpr ho.symm⟩
    | if_ h => exact ⟨_, h, List.mem_singleton_self _⟩
    | else_ h => exact ⟨_, h, List.mem_singleton_self _⟩
    | @brTable table arity entries target h ht hmem ho =>
      refine ⟨_, h, List.mem_map.mpr ⟨target, ?_, ho⟩⟩
      rwa [branchTable, List.getD_eq_getElem?_getD, ht]
  · rintro ⟨instr, h, ho⟩
    cases instr with
    | br target arity => exact .br h (List.mem_singleton.mp ho).symm
    | brIf target arity => exact .brIf h (List.mem_singleton.mp ho).symm
    | if_ n => exact .if_ (List.mem_singleton.mp ho ▸ h)
    | else_ n => exact .else_ (List.mem_singleton.mp ho ▸ h)
    | brTable table arity =>
      obtain ⟨target, hmem, ho⟩ := List.mem_map.mp ho
      rw [branchTable, List.getD_eq_getElem?_getD] at hmem
      cases ht : code.branchTables[table]? with
      | none =>
        rw [ht] at hmem
        cases hmem
      | some entries =>
        rw [ht] at hmem
        exact .brTable h ht hmem ho
    | _ => cases ho

/-- The leaders are the offsets at which a block must begin. -/
theorem mem_leaders_iff_begins {o : Nat} : o ∈ code.leaders ↔ code.Begins o := by
  rw [mem_leaders]
  constructor
  · rintro (rfl | ⟨p, instr, h, ho | ⟨ht, rfl⟩⟩)
    · exact .first
    · exact .target (branchesTo_iff.mpr ⟨instr, h, ho⟩)
    · exact .behind h (instr.transfersControl_iff.mp ht)
  · rintro (_ | h | ⟨h, ht⟩)
    · exact .inl rfl
    · obtain ⟨instr, h, ho⟩ := branchesTo_iff.mp h
      exact .inr ⟨_, instr, h, .inl ho⟩
    · exact .inr ⟨_, _, h, .inr ⟨(Instruction.transfersControl_iff _).mpr ht, rfl⟩⟩

theorem closed_of_targets (ht : ∀ instr ∈ code.instructions, ∀ o ∈ code.targets instr, o < code.size)
    (hlast : code.instructions.back? = some .end_) : code.Closed where
  targets := fun p o ho => by
    obtain ⟨instr, hi, ho⟩ := branchesTo_iff.mp ho
    exact ht instr (Array.mem_of_getElem? hi) o ho
  last := hlast

namespace Closed

variable (h : code.Closed)
include h

theorem size_pos : 0 < code.size := by
  have hlast := h.last
  rw [Array.back?_eq_getElem?] at hlast
  exact Nat.zero_lt_of_lt (Array.getElem?_eq_some_iff.mp hlast).1

/-- Behind an instruction other than an end there is another one. -/
theorem succ_lt_size {o : Nat} {instr : Instruction} (hi : code.instructions[o]? = some instr)
    (hne : instr ≠ .end_) : o + 1 < code.size := by
  have hlast := h.last
  have hlt : o < code.size := (Array.getElem?_eq_some_iff.mp hi).1
  refine Nat.lt_of_le_of_ne hlt fun ho => hne ?_
  rw [Array.back?_eq_getElem?, show code.instructions.size - 1 = o from by
    rw [show code.instructions.size = o + 1 from ho.symm, Nat.add_sub_cancel], hi] at hlast
  exact Option.some.inj hlast

theorem lt_size_of_begins {o : Nat} (ho : code.Begins o) : o < code.size := by
  cases ho with
  | first => exact h.size_pos
  | target hb => exact h.targets _ _ hb
  | behind hi ht => exact h.succ_lt_size hi (by rintro rfl; cases ht)

theorem mem_blockStarts_iff {o : Nat} : o ∈ code.blockStarts ↔ code.Begins o := by
  rw [mem_blockStarts, mem_leaders_iff_begins]
  exact ⟨fun ho => ho.2, fun ho => ⟨h.lt_size_of_begins ho, ho⟩⟩

end Closed

end Code

/-- The last of the elements with a property that come first, and what follows it. -/
theorem exists_getLast?_takeWhile {α : Type} (p : α → Bool) {l : List α} {a : α}
    (ha : l.head? = some a) (hp : p a = true) :
    ∃ before x after, l = before ++ x :: after ∧ (l.takeWhile p).getLast? = some x ∧ p x = true ∧
      ∀ y, after.head? = some y → p y = false := by
  induction l generalizing a with
  | nil => cases ha
  | cons b rest ih =>
    obtain rfl := Option.some.inj ha
    cases rest with
    | nil => exact ⟨[], b, [], rfl, by simp [hp], hp, nofun⟩
    | cons c rest =>
      cases hc : p c with
      | false =>
        refine ⟨[], b, c :: rest, rfl, by simp [hp, hc], hp, fun y hy => ?_⟩
        obtain rfl := Option.some.inj hy
        exact hc
      | true =>
        obtain ⟨before, x, after, hsplit, hlast, hx, hafter⟩ := ih rfl hc
        refine ⟨b :: before, x, after, by rw [hsplit, List.cons_append], ?_, hx, hafter⟩
        rw [List.takeWhile_cons_of_pos hc] at hlast
        rw [List.takeWhile_cons_of_pos hp, List.takeWhile_cons_of_pos hc, List.getLast?_cons_cons]
        exact hlast

namespace Graph

/-- The blocks are numbered by their positions, and one after another they make up a body of the
given size. -/
structure Partitions (g : Graph) (size : Nat) : Prop where
  id : ∀ (k : Nat) b, g.blocks[k]? = some b → b.id = k
  first : ∀ b, g.blocks.head? = some b → b.start = 0
  nonempty : ∀ b ∈ g.blocks, b.start < b.stop
  next : ∀ (k : Nat) b b', g.blocks[k]? = some b → g.blocks[k + 1]? = some b' → b'.start = b.stop
  last : g.blocks.getLast?.map (·.stop) = some size

namespace Partitions

variable {g : Graph} {size : Nat} (h : g.Partitions size)
include h

/-- Blocks further on lie further on. -/
theorem stop_le_start {j : Nat} {b : Block} (hb : g.blocks[j]? = some b) (n : Nat) :
    ∀ b', g.blocks[j + n + 1]? = some b' → b.stop ≤ b'.start := by
  induction n with
  | zero => exact fun b' hb' => Nat.le_of_eq (h.next j b b' hb hb').symm
  | succ n ih =>
    intro b' hb'
    have hlt : j + n + 1 < g.blocks.length := by
      have := (List.getElem?_eq_some_iff.mp hb').1
      omega
    have hmid := List.getElem?_eq_getElem hlt
    have hbegin := h.next _ _ _ hmid hb'
    have hne := h.nonempty _ (List.mem_of_getElem? hmid)
    have hle := ih _ hmid
    omega

/-- No two blocks share an offset. -/
theorem unique {j k o : Nat} {b b' : Block} (hj : g.blocks[j]? = some b)
    (hk : g.blocks[k]? = some b') (ho : b.start ≤ o ∧ o < b.stop)
    (ho' : b'.start ≤ o ∧ o < b'.stop) : j = k := by
  rcases Nat.lt_trichotomy j k with hlt | rfl | hgt
  · have := h.stop_le_start hj (k - j - 1) b' (by rwa [show j + (k - j - 1) + 1 = k by omega])
    omega
  · rfl
  · have := h.stop_le_start hk (j - k - 1) b (by rwa [show k + (j - k - 1) + 1 = j by omega])
    omega

/-- The block that is found for an offset holds it. -/
theorem exists_blockAt {o : Nat} (ho : o < size) :
    ∃ b, g.blocks[g.blockAt o]? = some b ∧ b.start ≤ o ∧ o < b.stop := by
  obtain ⟨first, hhead⟩ : ∃ first, g.blocks.head? = some first := by
    have hlast := h.last
    cases hblocks : g.blocks with
    | nil => rw [hblocks] at hlast; cases hlast
    | cons b rest => exact ⟨b, rfl⟩
  have hfirst : decide (first.start ≤ o) = true := by
    rw [h.first first hhead]
    exact decide_eq_true (Nat.zero_le o)
  obtain ⟨before, b, after, hsplit, hfound, hstart, hafter⟩ :=
    exists_getLast?_takeWhile (fun b : Block => decide (b.start ≤ o)) hhead hfirst
  have hget : g.blocks[before.length]? = some b := by rw [hsplit]; simp
  have hat : g.blockAt o = before.length := by
    unfold blockAt
    rw [hfound]
    exact h.id _ b hget
  refine ⟨b, hat ▸ hget, of_decide_eq_true hstart, ?_⟩
  cases after with
  | nil =>
    have hlast := h.last
    rw [hsplit, List.getLast?_concat] at hlast
    obtain rfl := Option.some.inj hlast
    exact ho
  | cons c rest =>
    have hnext : g.blocks[before.length + 1]? = some c := by rw [hsplit]; simp
    rw [← h.next _ b c hget hnext]
    exact Nat.not_le.mp (of_decide_eq_false (hafter c rfl))

/-- The lookup by offset finds the one block that holds the offset. -/
theorem holds_iff {o : Nat} (ho : o < size) (k : Nat) :
    (∃ b, g.blocks[k]? = some b ∧ b.start ≤ o ∧ o < b.stop) ↔ k = g.blockAt o := by
  obtain ⟨b', hb', ho'⟩ := h.exists_blockAt ho
  constructor
  · rintro ⟨b, hb, hbo⟩
    exact h.unique hb hb' hbo ho'
  · rintro rfl
    exact ⟨b', hb', ho'⟩

end Partitions

end Graph

theorem Graph.length_blocks {code : Code} (hpos : 0 < code.size) :
    (Graph.build code).blocks.length = code.blockStarts.length := by
  have hne := List.length_pos_of_mem (code.zero_mem_blockStarts hpos)
  unfold build
  rw [List.length_mapIdx, List.length_zip, List.length_append, List.length_tail,
    List.length_singleton]
  omega

/-- A jump leads to the block of a branch target, or to the next block behind an instruction that
is not the end of the body. -/
theorem Graph.mem_targets_jumpOf {code : Code} {instr : Instruction} {id stop : Nat}
    (hi : code.instructions[stop - 1]? = some instr) {j : Jump}
    (hj : jumpOf code code.blockStarts id stop = some j) {k : BlockId} (hk : k ∈ j.targets) :
    (∃ o ∈ code.targets instr, k = code.blockOf o) ∨
      k = id + 1 ∧ (instr ≠ .end_ ∨ stop < code.size) := by
  rw [jumpOf, hi] at hj
  cases instr with
  | br target arity =>
    obtain rfl := Option.some.inj hj
    exact .inl ⟨_, List.mem_singleton_self _, List.mem_singleton.mp hk⟩
  | else_ resume =>
    obtain rfl := Option.some.inj hj
    exact .inl ⟨_, List.mem_singleton_self _, List.mem_singleton.mp hk⟩
  | brIf target arity =>
    obtain rfl := Option.some.inj hj
    obtain rfl | hk := List.mem_cons.mp hk
    · exact .inl ⟨_, List.mem_singleton_self _, rfl⟩
    · exact .inr ⟨List.mem_singleton.mp hk, .inl (by simp)⟩
  | if_ otherwise =>
    obtain rfl := Option.some.inj hj
    obtain rfl | hk := List.mem_cons.mp hk
    · exact .inr ⟨rfl, .inl (by simp)⟩
    · exact .inl ⟨_, List.mem_singleton_self _, List.mem_singleton.mp hk⟩
  | brTable table arity =>
    obtain ⟨d, hd, rfl⟩ := Option.map_eq_some_iff.mp hj
    -- the cases and the default together are all entries of the table
    have hall : k ∈ (code.branchTable table).map fun t => code.blockOf t.offset := by
      obtain ⟨before, hbefore⟩ := List.getLast?_eq_some_iff.mp hd
      rw [Jump.targets, hbefore, List.dropLast_concat] at hk
      exact hbefore ▸ hk
    obtain ⟨target, ht, rfl⟩ := List.mem_map.mp hall
    exact .inl ⟨_, List.mem_map_of_mem ht, rfl⟩
  | return_ | unreachable => cases hj
  | _ =>
    dsimp only at hj
    split at hj
    · next hstop =>
      obtain rfl := Option.some.inj hj
      exact .inr ⟨List.mem_singleton.mp hk, .inr hstop⟩
    · cases hj

namespace Code.Closed

variable {code : Code} (h : code.Closed)
include h

/-- The blocks of a closed body partition it. -/
theorem partitions : (Graph.build code).Partitions code.size := by
  refine ⟨fun k b hb => ?_, fun b hb => ?_, fun b hb => ?_, fun k b b' hb hb' => ?_, ?_⟩
  · obtain ⟨start, -, rfl⟩ := Graph.getElem?_blocks_eq_some.mp hb
    rfl
  · rw [List.head?_eq_getElem?] at hb
    obtain ⟨start, hstart, rfl⟩ := Graph.getElem?_blocks_eq_some.mp hb
    have hzero := blockOf_start (code.zero_mem_blockStarts h.size_pos)
    rw [blockOf_zero h.size_pos, hstart] at hzero
    exact Option.some.inj hzero
  · obtain ⟨hstart, hstop⟩ := Graph.mem_blocks hb
    rw [hstop]
    exact start_lt_blockStop hstart
  · obtain ⟨start, -, rfl⟩ := Graph.getElem?_blocks_eq_some.mp hb
    obtain ⟨start', hstart', rfl⟩ := Graph.getElem?_blocks_eq_some.mp hb'
    dsimp only [blockStop]
    rw [hstart', Option.getD_some]
  · have hpos := List.length_pos_of_mem (code.zero_mem_blockStarts h.size_pos)
    have hk : code.blockStarts.length - 1 < code.blockStarts.length := by omega
    rw [List.getLast?_eq_getElem?, Graph.length_blocks h.size_pos, Graph.getElem?_blocks,
      List.getElem?_eq_getElem hk]
    dsimp only [Option.map_some, blockStop]
    rw [List.getElem?_eq_none (by omega), Option.getD_none]

/-- A block begins at every offset at which one must, and it has the number of the offset. -/
theorem exists_block_of_begins {o : Nat} (ho : code.Begins o) :
    ∃ b, (Graph.build code).blocks[code.blockOf o]? = some b ∧ b.start = o :=
  ⟨_, Graph.getElem?_blocks_eq_some.mpr ⟨o, blockOf_start (h.mem_blockStarts_iff.mpr ho), rfl⟩, rfl⟩

/-- Every jump leads to the begin of a block: to where the last instruction branches, or to what
stands behind it. -/
theorem exists_block_of_mem_targets {b : Block} (hb : b ∈ (Graph.build code).blocks) {j : Jump}
    (hj : b.jump = some j) {k : BlockId} (hk : k ∈ j.targets) :
    ∃ b', (Graph.build code).blocks[k]? = some b' ∧
      (code.BranchesTo (b.stop - 1) b'.start ∨ b'.start = b.stop) := by
  obtain ⟨id, hid⟩ := List.getElem?_of_mem hb
  obtain ⟨start, hstart, rfl⟩ := Graph.getElem?_blocks_eq_some.mp hid
  obtain ⟨instr, hi⟩ := exists_lastInstruction hstart
  have hlt := start_lt_blockStop hstart
  dsimp only at hj ⊢
  obtain ⟨o, ho, rfl⟩ | ⟨rfl, hbehind⟩ := Graph.mem_targets_jumpOf hi hj hk
  · have hto := branchesTo_iff.mpr ⟨instr, hi, ho⟩
    obtain ⟨b', hb', rfl⟩ := h.exists_block_of_begins (.target hto)
    exact ⟨b', hb', .inl hto⟩
  · have hstop : code.blockStop id < code.size := by
      obtain hne | hstop := hbehind
      · have := h.succ_lt_size hi hne
        omega
      · exact hstop
    exact ⟨_, Graph.getElem?_blocks_eq_some.mpr ⟨_, blockStop_mem hstop, rfl⟩, .inr rfl⟩

/-- Inside a block nothing begins. -/
theorem not_begins {b : Block} (hb : b ∈ (Graph.build code).blocks) {o : Nat} (hlo : b.start < o)
    (hhi : o < b.stop) : ¬code.Begins o := by
  obtain ⟨hstart, hstop⟩ := Graph.mem_blocks hb
  rw [← h.mem_blockStarts_iff]
  exact not_mem_blockStarts hstart hlo (hstop ▸ hhi)

end Code.Closed

/-- The graph of a closed body partitions it. The blocks are numbered by position, not empty, and one
after another they reach from the begin of the body to its end. A block begins exactly where one
must: at 0, where a branch leads, and behind a control transfer. So no branch leads into a block past
its begin, and control is transferred only by the last instruction of a block. The lookup by offset
finds the one block that holds the offset, and every jump leads to a block, which begins where the
last instruction branches to or right behind it. -/
theorem graph_partitions_body (code : Code) (h : code.Closed) :
    (Graph.build code).Partitions code.size ∧
    (∀ o, (∃ b ∈ (Graph.build code).blocks, b.start = o) ↔ code.Begins o) ∧
    (∀ b ∈ (Graph.build code).blocks, ∀ o, b.start < o → o < b.stop →
      ∀ p, ¬code.BranchesTo p o) ∧
    (∀ b ∈ (Graph.build code).blocks, ∀ p instr, b.start ≤ p → p + 1 < b.stop →
      code.instructions[p]? = some instr → ¬instr.Transfers) ∧
    (∀ o < code.size, ∀ k : Nat,
      (∃ b, (Graph.build code).blocks[k]? = some b ∧ b.start ≤ o ∧ o < b.stop) ↔
        k = (Graph.build code).blockAt o) ∧
    ∀ b ∈ (Graph.build code).blocks, ∀ j, b.jump = some j → ∀ k ∈ j.targets,
      ∃ b', (Graph.build code).blocks[k]? = some b' ∧
        (code.BranchesTo (b.stop - 1) b'.start ∨ b'.start = b.stop) := by
  refine ⟨h.partitions, fun o => ⟨?_, fun ho => ?_⟩, fun b hb o hlo hhi p hto => ?_,
    fun b hb p instr hlo hhi hi ht => ?_, fun o ho => h.partitions.holds_iff ho,
    fun b hb j hj k hk => h.exists_block_of_mem_targets hb hj hk⟩
  · rintro ⟨b, hb, rfl⟩
    exact h.mem_blockStarts_iff.mp (List.mem_of_getElem? (Graph.mem_blocks hb).1)
  · obtain ⟨b, hb, hstart⟩ := h.exists_block_of_begins ho
    exact ⟨b, List.mem_of_getElem? hb, hstart⟩
  · exact h.not_begins hb hlo hhi (.target hto)
  · exact h.not_begins hb (Nat.lt_succ_of_le hlo) hhi (.behind hi ht)

/-- Blocks of one instruction, a branch to the first and one to the last instruction. -/
theorem tableLoop_partitioned :
    tableLoop.Closed ∧
      (Graph.build tableLoop).blocks.map (fun b => (b.start, b.stop)) =
        [(0, 3), (3, 5), (5, 6), (6, 8), (8, 9)] ∧
      (∀ k : Nat, (∃ b, (Graph.build tableLoop).blocks[k]? = some b ∧ b.start ≤ 7 ∧ 7 < b.stop) ↔
        k = 3) ∧
      tableLoop.Begins 8 := by
  have hclosed : tableLoop.Closed := Code.closed_of_targets (by decide) rfl
  obtain ⟨-, hbegins, -, -, hat, -⟩ := graph_partitions_body tableLoop hclosed
  have hlookup : (Graph.build tableLoop).blockAt 7 = 3 := by decide
  refine ⟨hclosed, by decide, fun k => ?_, (hbegins 8).mp (by decide)⟩
  rw [hat 7 (by decide), hlookup]

end WasmEngine

import WasmEngine.ControlFlow.Graph

/-!
# The blocks of a body

How `Graph.build` cuts a body into blocks. The begins of the blocks are the leaders inside the body,
in increasing order; a block reaches up to the begin of the next one, and the number of a block is
its position. Every offset of the body lies in exactly one block.
-/
namespace WasmEngine
set_option autoImplicit false

/-- A body whose branches stay inside it, whose branch tables have a default and fewer entries than
there are selectors, and which ends with an end. -/
structure Code.WellFormed (code : Code) : Prop where
  targets : ∀ instr ∈ code.instructions, ∀ target ∈ code.targets instr, target < code.size
  tables : ∀ table arity, Instruction.brTable table arity ∈ code.instructions →
    code.branchTable table ≠ [] ∧ (code.branchTable table).length < 4294967296
  last : code.instructions.back? = some .end_

section
variable {l : List Nat} {o : Nat}

/-- In an increasing list the numbers up to `o` come first. -/
theorem lt_countP_iff (hl : l.Pairwise (· < ·)) {k x : Nat} (hk : l[k]? = some x) :
    k < l.countP (· ≤ o) ↔ x ≤ o := by
  induction l generalizing k with
  | nil => cases hk
  | cons a rest ih =>
    obtain ⟨ha, hrest⟩ := List.pairwise_cons.mp hl
    by_cases hao : a ≤ o
    · rw [List.countP_cons_of_pos (by simpa using hao)]
      cases k with
      | zero =>
        obtain rfl := Option.some.inj hk
        simp [hao]
      | succ k => rw [Nat.add_lt_add_iff_right, ih hrest hk]
    · -- All that follow are larger still.
      have hzero : rest.countP (· ≤ o) = 0 := by
        rw [List.countP_eq_zero]
        intro y hy
        have hay := ha y hy
        rw [decide_eq_true_eq]
        omega
      rw [List.countP_cons_of_neg (by simpa using hao), hzero]
      have hax : a ≤ x := by
        rcases List.mem_cons.mp (List.mem_of_getElem? hk) with rfl | hx
        · exact Nat.le_refl _
        · exact Nat.le_of_lt (ha x hx)
      omega

/-- The number counted by `indexOf` is the place of the last begin at or before the offset. -/
theorem getElem?_indexOf (hl : l.Pairwise (· < ·)) {x : Nat} (hx : x ∈ l) (hxo : x ≤ o) :
    ∃ start, l[Graph.indexOf l o]? = some start ∧ start ≤ o ∧
      ∀ stop, l[Graph.indexOf l o + 1]? = some stop → o < stop := by
  have hpos : 0 < l.countP (· ≤ o) := List.countP_pos_iff.mpr ⟨x, hx, by simpa using hxo⟩
  have hlen : l.countP (· ≤ o) ≤ l.length := List.countP_le_length
  unfold Graph.indexOf
  have hk : l[l.countP (· ≤ o) - 1]? = some (l[l.countP (· ≤ o) - 1]) :=
    List.getElem?_eq_getElem (by omega)
  refine ⟨_, hk, (lt_countP_iff hl hk).mp (by omega), fun stop hstop => ?_⟩
  apply Nat.lt_of_not_le
  intro hle
  have := (lt_countP_iff hl hstop).mpr hle
  omega

/-- The place of a begin is its number. -/
theorem getElem?_indexOf_self (hl : l.Pairwise (· < ·)) (ho : o ∈ l) :
    l[Graph.indexOf l o]? = some o := by
  obtain ⟨start, hstart, hle, hnext⟩ := getElem?_indexOf hl ho (Nat.le_refl o)
  obtain ⟨j, hj⟩ := List.getElem?_of_mem ho
  obtain ⟨hjlt, hjo⟩ := List.getElem?_eq_some_iff.mp hj
  obtain ⟨hklt, hks⟩ := List.getElem?_eq_some_iff.mp hstart
  have hcount := (lt_countP_iff hl hj).mpr (Nat.le_refl o)
  have hjk : j ≤ Graph.indexOf l o := by
    unfold Graph.indexOf
    omega
  rcases Nat.lt_or_eq_of_le hjk with hlt | heq
  · have := List.pairwise_iff_getElem.mp hl j _ hjlt hklt hlt
    omega
  · rw [← heq]
    exact hj

end

namespace Code

variable (code : Code)

theorem mem_leaders {o : Nat} :
    o ∈ code.leaders ↔ o = 0 ∨ ∃ p instr, code.instructions[p]? = some instr ∧
      (o ∈ code.targets instr ∨ instr.transfersControl = true ∧ o = p + 1) := by
  simp only [leaders, List.mem_cons, List.mem_flatMap, List.mem_range]
  apply or_congr_right
  constructor
  · rintro ⟨p, -, ho⟩
    unfold leadersAt at ho
    split at ho
    · cases ho
    · rename_i instr hinstr
      refine ⟨p, instr, hinstr, ?_⟩
      rcases List.mem_append.mp ho with ho | ho
      · exact .inl ho
      · split at ho
        · rename_i ht
          exact .inr ⟨ht, List.mem_singleton.mp ho⟩
        · cases ho
  · rintro ⟨p, instr, hinstr, ho⟩
    refine ⟨p, (Array.getElem?_eq_some_iff.mp hinstr).1, ?_⟩
    unfold leadersAt
    rw [hinstr]
    refine List.mem_append.mpr ?_
    rcases ho with ho | ⟨ht, rfl⟩
    · exact .inl ho
    · exact .inr (by rw [if_pos ht]; exact List.mem_singleton_self _)

theorem mem_blockStarts {o : Nat} : o ∈ code.blockStarts ↔ o < code.size ∧ o ∈ code.leaders := by
  simp [blockStarts, List.mem_filter]

theorem blockStarts_sorted : code.blockStarts.Pairwise (· < ·) :=
  List.pairwise_lt_range.filter _

theorem zero_mem_blockStarts (h : 0 < code.size) : 0 ∈ code.blockStarts :=
  code.mem_blockStarts.mpr ⟨h, code.mem_leaders.mpr (.inl rfl)⟩

/-- Where the block with the number `k` stops. -/
def blockStop (k : Nat) : Nat := (code.blockStarts[k + 1]?).getD code.size

def blockOf (o : Nat) : BlockId := Graph.indexOf code.blockStarts o

variable {code}

theorem blockStop_le (k : Nat) : code.blockStop k ≤ code.size := by
  unfold blockStop
  cases h : code.blockStarts[k + 1]? with
  | none => exact Nat.le_refl _
  | some stop => exact Nat.le_of_lt (code.mem_blockStarts.mp (List.mem_of_getElem? h)).1

/-- Blocks are not empty. -/
theorem start_lt_blockStop {k start : Nat} (hk : code.blockStarts[k]? = some start) :
    start < code.blockStop k := by
  unfold blockStop
  cases h : code.blockStarts[k + 1]? with
  | none => exact (code.mem_blockStarts.mp (List.mem_of_getElem? hk)).1
  | some stop =>
    obtain ⟨hklt, rfl⟩ := List.getElem?_eq_some_iff.mp hk
    obtain ⟨hslt, rfl⟩ := List.getElem?_eq_some_iff.mp h
    exact List.pairwise_iff_getElem.mp code.blockStarts_sorted k (k + 1) hklt hslt (by omega)

/-- Every offset lies in the block with its number. -/
theorem blockOf_spec {o : Nat} (ho : o < code.size) :
    ∃ start, code.blockStarts[code.blockOf o]? = some start ∧ start ≤ o ∧
      o < code.blockStop (code.blockOf o) := by
  have hzero := code.zero_mem_blockStarts (by omega)
  obtain ⟨start, hstart, hle, hnext⟩ :=
    getElem?_indexOf code.blockStarts_sorted hzero (Nat.zero_le o)
  refine ⟨start, hstart, hle, ?_⟩
  unfold blockStop blockOf
  cases hs : code.blockStarts[Graph.indexOf code.blockStarts o + 1]? with
  | none => exact ho
  | some stop => exact hnext stop hs

/-- No block begins inside another. -/
theorem not_mem_blockStarts {k start o : Nat} (hk : code.blockStarts[k]? = some start)
    (hlo : start < o) (hhi : o < code.blockStop k) : o ∉ code.blockStarts := by
  intro ho
  obtain ⟨j, hj⟩ := List.getElem?_of_mem ho
  obtain ⟨hklt, rfl⟩ := List.getElem?_eq_some_iff.mp hk
  obtain ⟨hjlt, rfl⟩ := List.getElem?_eq_some_iff.mp hj
  have hsorted := List.pairwise_iff_getElem.mp code.blockStarts_sorted
  rcases Nat.lt_trichotomy j k with hlt | rfl | hgt
  · have := hsorted j k hjlt hklt hlt
    omega
  · omega
  · have hnext : code.blockStop k = code.blockStarts[k + 1] := by
      rw [blockStop, List.getElem?_eq_getElem (by omega), Option.getD_some]
    rcases Nat.lt_or_eq_of_le (Nat.succ_le_of_lt hgt) with hlt | heq
    · have := hsorted (k + 1) j (by omega) hjlt hlt
      omega
    · simp only [← heq, Nat.succ_eq_add_one] at hhi
      omega

/-- Offsets of one block have its number. -/
theorem blockOf_eq {k start o : Nat} (hk : code.blockStarts[k]? = some start) (hlo : start ≤ o)
    (hhi : o < code.blockStop k) : code.blockOf o = k := by
  have ho : o < code.size := Nat.lt_of_lt_of_le hhi (blockStop_le k)
  obtain ⟨start', hk', hlo', hhi'⟩ := blockOf_spec ho
  obtain ⟨hklt, rfl⟩ := List.getElem?_eq_some_iff.mp hk
  obtain ⟨hklt', rfl⟩ := List.getElem?_eq_some_iff.mp hk'
  have hsorted := List.pairwise_iff_getElem.mp code.blockStarts_sorted
  rcases Nat.lt_trichotomy (code.blockOf o) k with hlt | heq | hgt
  · -- The begin of the block `k` would lie inside the other one.
    have hbegin := hsorted _ _ hklt' hklt hlt
    exact absurd (List.getElem_mem hklt) (not_mem_blockStarts hk' hbegin (by omega))
  · exact heq
  · have hbegin := hsorted _ _ hklt hklt' hgt
    exact absurd (List.getElem_mem hklt') (not_mem_blockStarts hk hbegin (by omega))

theorem blockOf_start {o : Nat} (ho : o ∈ code.blockStarts) :
    code.blockStarts[code.blockOf o]? = some o :=
  getElem?_indexOf_self code.blockStarts_sorted ho

/-- The body begins with block 0. -/
theorem blockOf_zero (h : 0 < code.size) : code.blockOf 0 = 0 := by
  have hk := blockOf_start (code.zero_mem_blockStarts h)
  obtain ⟨hlt, hstart⟩ := List.getElem?_eq_some_iff.mp hk
  rcases Nat.eq_zero_or_pos (code.blockOf 0) with hzero | hpos
  · exact hzero
  · have hfirst : 0 < code.blockStarts.length := by omega
    have := List.pairwise_iff_getElem.mp code.blockStarts_sorted 0 _ hfirst hlt hpos
    omega

end Code

namespace Graph

variable (code : Code)

theorem getElem?_blocks (k : Nat) :
    (build code).blocks[k]? = (code.blockStarts[k]?).map fun start =>
      ⟨k, start, code.blockStop k, jumpOf code code.blockStarts k (code.blockStop k)⟩ := by
  have hstop : ∀ start, code.blockStarts[k]? = some start →
      (code.blockStarts.tail ++ [code.size])[k]? = some (code.blockStop k) := by
    intro start hk
    obtain ⟨hklt, -⟩ := List.getElem?_eq_some_iff.mp hk
    rw [Code.blockStop]
    by_cases hlast : k + 1 < code.blockStarts.length
    · rw [List.getElem?_append_left (by rw [List.length_tail]; omega), List.getElem?_tail,
        List.getElem?_eq_getElem hlast]
      rfl
    · have hk : k = code.blockStarts.tail.length := by
        rw [List.length_tail]
        omega
      rw [List.getElem?_eq_none (Nat.le_of_not_lt hlast), hk, List.getElem?_concat_length]
      rfl
  simp only [build, List.getElem?_mapIdx, List.zip_eq_zipWith, List.getElem?_zipWith]
  cases hk : code.blockStarts[k]? with
  | none => rfl
  | some start =>
    rw [hstop start hk]
    rfl

variable {code}

theorem getElem?_blocks_eq_some {k : Nat} {b : Block} :
    (build code).blocks[k]? = some b ↔ ∃ start, code.blockStarts[k]? = some start ∧
      b = ⟨k, start, code.blockStop k, jumpOf code code.blockStarts k (code.blockStop k)⟩ := by
  rw [getElem?_blocks, Option.map_eq_some_iff]
  constructor
  · rintro ⟨start, hs, rfl⟩
    exact ⟨start, hs, rfl⟩
  · rintro ⟨start, hs, rfl⟩
    exact ⟨start, hs, rfl⟩

theorem successors_eq {k start : Nat} (hk : code.blockStarts[k]? = some start) :
    (build code).successors k =
      ((jumpOf code code.blockStarts k (code.blockStop k)).map Jump.targets).getD [] := by
  rw [successors, getElem?_blocks, hk]
  rfl

theorem mem_blocks {b : Block} (h : b ∈ (build code).blocks) :
    code.blockStarts[b.id]? = some b.start ∧ b.stop = code.blockStop b.id := by
  obtain ⟨k, hk⟩ := List.getElem?_of_mem h
  obtain ⟨start, hs, rfl⟩ := getElem?_blocks_eq_some.mp hk
  exact ⟨hs, rfl⟩

/-- The block with the number `k`, which begins at `start`. -/
theorem exists_block {k start : Nat} (hk : code.blockStarts[k]? = some start) :
    ∃ b ∈ (build code).blocks, b.id = k ∧ b.start = start ∧ b.stop = code.blockStop k := by
  exact ⟨_, List.mem_of_getElem? (getElem?_blocks_eq_some.mpr ⟨start, hk, rfl⟩), rfl, rfl, rfl⟩

/-- The block whose entry is reported at an offset is the one that begins there. -/
theorem find?_start (o : Nat) :
    ((build code).blocks.find? (·.start == o)).map (·.id) =
      if o ∈ code.blockStarts then some (code.blockOf o) else none := by
  cases hf : (build code).blocks.find? (·.start == o) with
  | none =>
    rw [List.find?_eq_none] at hf
    rw [if_neg, Option.map_none]
    intro ho
    obtain ⟨b, hb, -, hstart, -⟩ := exists_block (Code.blockOf_start ho)
    exact hf b hb (by simpa using hstart)
  | some b =>
    have hstart : b.start = o := by simpa using List.find?_some hf
    obtain ⟨hs, -⟩ := mem_blocks (List.mem_of_find?_eq_some hf)
    rw [hstart] at hs
    have hmem := List.mem_of_getElem? hs
    rw [if_pos hmem, Option.map_some,
      Code.blockOf_eq hs (Nat.le_refl o) (Code.start_lt_blockStop hs)]

end Graph

end WasmEngine

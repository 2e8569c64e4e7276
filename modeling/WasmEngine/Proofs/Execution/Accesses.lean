import Mathlib.Algebra.Group.Int.Defs
import WasmEngine.Proofs.Execution.Footprint
import WasmEngine.Proofs.Store.Contents
import WasmEngine.Proofs.Typing.Numeric

/-!
# Accesses to linear memory

Loads and stores are little-endian, exact about the bounds and local. The address is the sum of the
operand and the static offset as natural numbers, so nothing wraps around. An access of `width`
bytes traps exactly if it reaches past the end of the memory, and then it changes nothing; a store
changes the bytes of its range and no others, and a load depends on the bytes of its range only.
-/
namespace WasmEngine
set_option autoImplicit false

namespace Cell

/-- The cell is well-formed for the type, and its bits are those of the integer in two's
complement. -/
structure Encodes (t : ValType) (c : Cell) (v : Int) : Prop where
  wellFormed : c.wellFormed t = true
  bits : (c.bitsOf t : Int) = v % 2 ^ (8 * t.byteWidth)

/-- The bits of a value are the lowest ones of the cell. -/
theorem bitsOf_eq (t : ValType) (c : Cell) : c.bitsOf t = c.toNat % 2 ^ (8 * t.byteWidth) := by
  have hc : c.toNat % 2 ^ 64 = c.toNat := Nat.mod_eq_of_lt c.isLt
  cases t with
  | i32 | f32 => exact BitVec.toNat_setWidth 32 c
  | i64 | f64 => exact hc.symm

theorem bitsOf_ofWord (t : IntType) (y : BitVec t.bits) :
    (ofWord t y).bitsOf t.valType = y.toNat := by
  have hlt := y.isLt
  rw [bitsOf_eq, ofWord, BitVec.toNat_setWidth]
  cases t with
  | i32 =>
    have h : y.toNat < 2 ^ 32 := hlt
    have h64 : y.toNat % 2 ^ 64 = y.toNat := Nat.mod_eq_of_lt (by omega)
    rw [h64]
    exact Nat.mod_eq_of_lt hlt
  | i64 =>
    have h64 : y.toNat % 2 ^ 64 = y.toNat := Nat.mod_eq_of_lt hlt
    rw [h64]
    exact Nat.mod_eq_of_lt hlt

/-- An integer in two's complement, in a cell of its own. -/
theorem encodes_ofWord (t : IntType) (v : Int) :
    Encodes t.valType (ofWord t (BitVec.ofInt t.bits v)) v := by
  have hbits : 8 * t.valType.byteWidth = t.bits := by cases t <;> rfl
  have hpos : (0 : Int) < 2 ^ t.bits := Int.pow_pos (by decide)
  refine ⟨ofWord_wellFormed t _, ?_⟩
  rw [bitsOf_ofWord, BitVec.toNat_ofInt, hbits]
  exact Int.toNat_of_nonneg (Int.emod_nonneg _ (Int.ne_of_gt hpos))

end Cell

namespace LoadOp

/-- How a load extends what it reads; a load of the whole width has nothing to extend. -/
def sign : LoadOp → Signedness
  | .full _ => .unsigned
  | .packed8 _ s | .packed16 _ s | .packed32 s => s

/-- The integer that a load takes the number `n` in its bytes for. -/
def reading (op : LoadOp) (n : Nat) : Int :=
  if op.sign = .signed ∧ 2 ^ (8 * op.width - 1) ≤ n then n - 2 ^ (8 * op.width) else n

theorem toInt_ofNat_eq {k n : Nat} (h : n < 2 ^ k) :
    (BitVec.ofNat k n).toInt = if 2 ^ (k - 1) ≤ n then (n : Int) - 2 ^ k else n := by
  have hn : (BitVec.ofNat k n).toNat = n := Nat.mod_eq_of_lt h
  have hmsb : (BitVec.ofNat k n).msb = decide (2 ^ (k - 1) ≤ n) := by
    rw [BitVec.msb_eq_decide, hn]
  rw [BitVec.toInt_eq_msb_cond, hmsb, hn]
  simp only [decide_eq_true_eq]
  rfl

/-- An extension to an integer type, in two's complement. -/
theorem extend_bits {width n : Nat} (t : IntType) (s : Signedness)
    (hwidth : 8 * width ≤ t.bits) (h : n < 2 ^ (8 * width)) :
    ((extend width t s n).bitsOf t.valType : Int) =
      (if s = .signed ∧ 2 ^ (8 * width - 1) ≤ n then (n : Int) - 2 ^ (8 * width) else n) %
        2 ^ t.bits := by
  have hbits : t.bits = 8 * t.valType.byteWidth := by cases t <;> rfl
  cases s with
  | unsigned =>
    have hle : 2 ^ (8 * width) ≤ 2 ^ t.bits := Nat.pow_le_pow_right (by decide) hwidth
    have hword : 2 ^ t.bits ≤ 2 ^ 64 := by cases t <;> decide
    have hn : (BitVec.ofNat 64 n).toNat = n := Nat.mod_eq_of_lt (show n < 2 ^ 64 by omega)
    rw [if_neg (by simp), extend, Cell.bitsOf_eq, hn, ← hbits]
    exact Int.natCast_emod n _
  | signed =>
    simp only [true_and]
    rw [← toInt_ofNat_eq h, hbits]
    exact (Cell.encodes_ofWord t (BitVec.ofNat (8 * width) n).toInt).bits

/-- A load leaves the number that it reads as an integer of its result type. -/
theorem decode_encodes (op : LoadOp) (x : Memory) (address : Nat) :
    Cell.Encodes op.resultType (op.decode (x.read address op.width))
      (op.reading (x.read address op.width)) := by
  have hlt := (x.holds_read address op.width).lt
  refine ⟨op.decode_wellFormed x address, ?_⟩
  cases op with
  | full t =>
    have hle : 2 ^ (8 * t.byteWidth) ≤ 2 ^ 64 := by cases t <;> decide
    have hn : (BitVec.ofNat 64 (x.read address t.byteWidth)).toNat = x.read address t.byteWidth :=
      Nat.mod_eq_of_lt (Nat.lt_of_lt_of_le hlt hle)
    show ((Cell.bitsOf t (BitVec.ofNat 64 (x.read address t.byteWidth)) : Nat) : Int) = _
    rw [Cell.bitsOf_eq, hn, reading, if_neg (by simp [sign])]
    exact Int.natCast_emod _ _
  | packed8 t s =>
    have hbits : 8 * 1 ≤ t.bits := by cases t <;> decide
    cases t <;> exact extend_bits _ s hbits hlt
  | packed16 t s =>
    have hbits : 8 * 2 ≤ t.bits := by cases t <;> decide
    cases t <;> exact extend_bits _ s hbits hlt
  | packed32 s => exact extend_bits .i64 s (show 8 * 4 ≤ 64 by decide) hlt

end LoadOp

namespace Memory

/-- The memory `x'` holds the number `n` in `width` bytes from `address` on and is `x` otherwise. -/
structure Stored (x : Memory) (address width n : Nat) (x' : Memory) : Prop where
  limits : x'.limits = x.limits
  pagesLimit : x'.pagesLimit = x.pagesLimit
  size : x'.size = x.size
  holds : x'.Holds address width n
  others : ∀ k, ¬(address ≤ k ∧ k < address + width) → x'.byte k = x.byte k

theorem stored_write {x : Memory} {address width : Nat} (h : address + width ≤ x.size)
    (value : Nat) :
    x.Stored address width (value % 2 ^ (8 * width)) (x.write address width value) := by
  obtain ⟨hlimits, hpagesLimit, hsize⟩ := x.write_keeps width address value
  refine ⟨hlimits, hpagesLimit, hsize, holds_write h value, fun k hk => ?_⟩
  rw [byte_write, if_neg fun hin => hk ⟨hin.1, hin.2.1⟩]

/-- What a load of the bytes from `address` on finds; none where it reaches past the end. -/
def load? (x : Memory) (op : LoadOp) (address : Nat) : Option Cell :=
  if address + op.width ≤ x.size then some (op.decode (x.read address op.width)) else none

/-- What a store to the bytes from `address` on makes of the memory. -/
def store? (x : Memory) (op : StoreOp) (address value : Nat) : Option Memory :=
  if address + op.width ≤ x.size then some (x.write address op.width value) else none

section
variable {x x' : Memory} {address address' value : Nat} {c : Cell}

theorem load?_eq_none (op : LoadOp) :
    x.load? op address = none ↔ x.size < address + op.width := by
  unfold load?
  split
  · next h => exact ⟨nofun, fun hlt => absurd h (Nat.not_le.mpr hlt)⟩
  · next h => exact ⟨fun _ => Nat.not_le.mp h, fun _ => rfl⟩

theorem store?_eq_none (op : StoreOp) :
    x.store? op address value = none ↔ x.size < address + op.width := by
  unfold store?
  split
  · next h => exact ⟨nofun, fun hlt => absurd h (Nat.not_le.mpr hlt)⟩
  · next h => exact ⟨fun _ => Nat.not_le.mp h, fun _ => rfl⟩

/-- A load finds the number in its bytes, as an integer of its result type. -/
theorem load?_eq_some {op : LoadOp} (h : x.load? op address = some c) :
    ∃ n, x.Holds address op.width n ∧ Cell.Encodes op.resultType c (op.reading n) := by
  unfold load? at h
  split at h
  · obtain rfl := Option.some.inj h
    exact ⟨_, x.holds_read address op.width, op.decode_encodes x address⟩
  · cases h

theorem store?_eq_some {op : StoreOp} (h : x.store? op address value = some x') :
    x.Stored address op.width (value % 2 ^ (8 * op.width)) x' := by
  unfold store? at h
  split at h
  · next hfits =>
    obtain rfl := Option.some.inj h
    exact stored_write hfits value
  · cases h

/-- A load of what was stored finds the operand, cut to the width. -/
theorem load?_of_stored {op : LoadOp} {n : Nat} (h : x.Stored address op.width n x')
    (hfits : address + op.width ≤ x.size) :
    ∃ c, x'.load? op address = some c ∧ Cell.Encodes op.resultType c (op.reading n) := by
  have hread : x'.read address op.width = n := ((x'.holds_iff _ _ _).mp h.holds).symm
  refine ⟨_, if_pos (h.size.symm ▸ hfits), ?_⟩
  rw [← hread]
  exact op.decode_encodes x' address

/-- A load beside the range of a store finds what it found before. -/
theorem load?_of_stored_apart {op : LoadOp} {width n : Nat} (h : x.Stored address width n x')
    (hapart : address' + op.width ≤ address ∨ address + width ≤ address') :
    x'.load? op address' = x.load? op address' := by
  have hread : x'.read address' op.width = x.read address' op.width := by
    refine read_congr fun k hlo hhi => h.others k ?_
    omega
  unfold load?
  rw [h.size, hread]

end

end Memory

/-- A load ends with the cell that it finds in the place of its address, or with a trap. Nothing but
the journal changes. -/
inductive Outcome.Loads (next : Nat) (frame : Frame) (m : Machine) : Option Cell → Outcome → Prop
  | found (c : Cell) (journal : Array Event) :
      Loads next frame m (some c) (.goto next (frame.setTop c) { m with journal })
  | outside (journal : Array Event) :
      Loads next frame m none (.trap .memoryOutOfBounds { m with journal })

/-- A store takes its operands and puts another memory under the address `a`, or it ends with a trap.
Nothing else changes but the journal. -/
inductive Outcome.Stores (a : MemoryAddr) (next : Nat) (frame : Frame) (m : Machine) :
    Option Memory → Outcome → Prop
  | done (x : Memory) (journal : Array Event) :
      Stores a next frame m (some x) (.goto next (frame.drop 2)
        { m with store := m.store.updateMemory a fun _ => x, journal })
  | outside (journal : Array Event) :
      Stores a next frame m none (.trap .memoryOutOfBounds { m with journal })

theorem reportAccess_eq (obs : Observers) (m : Machine) (i : InstanceId) (kind : AccessKind)
    (address width : Nat) :
    ∃ journal, m.reportAccess obs i kind address width = { m with journal } := by
  unfold Machine.reportAccess
  split
  · exact ⟨m.journal, rfl⟩
  · dsimp only
    split <;> exact ⟨_, rfl⟩

section
variable (obs : Observers) {i : InstanceId} (code : Code) {m : Machine} {a : MemoryAddr} {x : Memory}

theorem step_loads (ha : m.store.memoryOf? i = some a) (hx : m.store.memories[a]? = some x)
    (op : LoadOp) (offset next : Nat) (frame : Frame) :
    Outcome.Loads next frame m (x.load? op (frame.peek.index + offset))
      (step obs i code (.load op offset) next frame m) := by
  obtain ⟨journal, hreport⟩ :=
    reportAccess_eq obs m i .read (frame.peek.index + offset) op.width
  have hmemory : ((m.store.memoryOf? i).bind (m.store.memories[·]?)) = some x := by
    rw [ha]
    exact hx
  unfold step stepLoad Memory.load? Memory.inBounds
  simp only [hreport, hmemory, decide_eq_true_eq]
  split
  · exact .found _ journal
  · exact .outside journal

theorem step_stores (ha : m.store.memoryOf? i = some a) (hx : m.store.memories[a]? = some x)
    (op : StoreOp) (offset next : Nat) (frame : Frame) :
    Outcome.Stores a next frame m
      (x.store? op ((frame.operand 1).index + offset) frame.peek.toNat)
      (step obs i code (.store op offset) next frame m) := by
  obtain ⟨journal, hreport⟩ :=
    reportAccess_eq obs m i .write ((frame.operand 1).index + offset) op.width
  unfold step stepStore Memory.store? Memory.inBounds
  simp only [hreport, ha, hx, Option.any_some, decide_eq_true_eq]
  split
  · rw [Machine.updateStore, Store.updateMemory, modify_eq_const hx]
    exact .done _ journal
  · exact .outside journal

end

/-- A cell that encodes the lowest bits of another has the same bits. -/
theorem Cell.Encodes.bitsOf_eq {t : ValType} {c d : Cell}
    (h : c.Encodes t ((d.toNat % 2 ^ (8 * t.byteWidth) : Nat) : Int)) :
    c.bitsOf t = d.bitsOf t := by
  have hbits : c.bitsOf t = d.toNat % 2 ^ (8 * t.byteWidth) % 2 ^ (8 * t.byteWidth) := by
    exact_mod_cast h.bits
  rw [hbits, Nat.mod_mod, d.bitsOf_eq]

/-- How a load ends where memory 0 of the instance is `x`: with the cell `found`, or with a trap if
there is none. -/
structure LoadExact (obs : Observers) (i : InstanceId) (code : Code) (m : Machine) (x : Memory)
    (op : LoadOp) (offset next : Nat) (frame : Frame) (found : Option Cell) : Prop where
  ends : Outcome.Loads next frame m found (step obs i code (.load op offset) next frame m)
  outside : found = none ↔ x.size < frame.peek.index + offset + op.width
  value : ∀ c, found = some c → ∃ n, x.Holds (frame.peek.index + offset) op.width n ∧
    c.Encodes op.resultType (op.reading n)

/-- How a store ends where memory 0 of the instance is `x` under the address `a`: with the memory
`left` in its place, or with a trap if there is none; and what loads find then. -/
structure StoreExact (obs : Observers) (i : InstanceId) (code : Code) (m : Machine) (a : MemoryAddr)
    (x : Memory) (op : StoreOp) (offset next : Nat) (frame : Frame) (left : Option Memory) :
    Prop where
  ends : Outcome.Stores a next frame m left (step obs i code (.store op offset) next frame m)
  outside : left = none ↔ x.size < (frame.operand 1).index + offset + op.width
  stored : ∀ x', left = some x' → x.Stored ((frame.operand 1).index + offset) op.width
    (frame.peek.toNat % 2 ^ (8 * op.width)) x'
  loaded : ∀ x', left = some x' → ∀ m' : Machine,
    m'.store = m.store.updateMemory a (fun _ => x') →
      ∀ (load : LoadOp) (offset' next' : Nat) (frame' : Frame),
        frame'.peek.index + offset' = (frame.operand 1).index + offset → load.width = op.width →
          ∃ c, Outcome.Loads next' frame' m' (some c)
              (step obs i code (.load load offset') next' frame' m') ∧
            c.Encodes load.resultType (load.reading (frame.peek.toNat % 2 ^ (8 * op.width))) ∧
            ∀ t, load = .full t → op = .full t → c.bitsOf t = frame.peek.bitsOf t
  apart : ∀ x', left = some x' → ∀ m' : Machine,
    m'.store = m.store.updateMemory a (fun _ => x') →
      ∀ (load : LoadOp) (offset' next' : Nat) (frame' : Frame),
        frame'.peek.index + offset' + load.width ≤ (frame.operand 1).index + offset ∨
            (frame.operand 1).index + offset + op.width ≤ frame'.peek.index + offset' →
          ∃ found,
            Outcome.Loads next' frame' m found
              (step obs i code (.load load offset') next' frame' m) ∧
            Outcome.Loads next' frame' m' found
              (step obs i code (.load load offset') next' frame' m')

/-- Accesses to memory 0 of an instance are little-endian, exact about the bounds and local. A load
or a store of `op.width` bytes at the address operand plus the static offset, a sum that does not
wrap around, traps exactly if it reaches past the end of the memory, and then only the journal
changes. A load puts in the place of its address the number that its bytes hold, extended to the
result type; a store puts the lowest bytes of its operand there and changes no other byte. After a
store, in whatever machine has its store, a load of the same width and address finds the operand cut
to the width and extended by the sign of the load, bit for bit where both are of the whole width of
one type, floats included; a load whose range lies apart ends as before the store. -/
theorem accesses_exact (obs : Observers) (i : InstanceId) (code : Code) (m : Machine)
    (a : MemoryAddr) (x : Memory) (ha : m.store.memoryOf? i = some a)
    (hx : m.store.memories[a]? = some x) :
    (∀ (op : LoadOp) (offset next : Nat) (frame : Frame), ∃ found,
      LoadExact obs i code m x op offset next frame found) ∧
    ∀ (op : StoreOp) (offset next : Nat) (frame : Frame), ∃ left,
      StoreExact obs i code m a x op offset next frame left := by
  refine ⟨fun op offset next frame => ?_, fun op offset next frame => ?_⟩
  · exact ⟨_, step_loads obs code ha hx op offset next frame, Memory.load?_eq_none op,
      fun c hc => Memory.load?_eq_some hc⟩
  · have hlater : ∀ (x' : Memory) (m' : Machine),
        m'.store = m.store.updateMemory a (fun _ => x') →
          ∀ (load : LoadOp) (offset' next' : Nat) (frame' : Frame), Outcome.Loads next' frame' m'
            (x'.load? load (frame'.peek.index + offset'))
            (step obs i code (.load load offset') next' frame' m') := by
      intro x' m' hm'
      have ha' : m'.store.memoryOf? i = some a := by
        rw [hm']
        exact ha
      have hload : m'.store.memories[a]? = some x' := by
        rw [hm']
        exact getElem?_modify_const hx x'
      exact step_loads obs code ha' hload
    refine ⟨_, step_stores obs code ha hx op offset next frame, Memory.store?_eq_none op,
      fun x' hx' => Memory.store?_eq_some hx', ?_, ?_⟩
    · intro x' hx' m' hm' load offset' next' frame' haddress hwidth
      have hstored := Memory.store?_eq_some hx'
      have hfits : (frame.operand 1).index + offset + op.width ≤ x.size := by
        apply Nat.not_lt.mp
        intro hout
        rw [(Memory.store?_eq_none op).mpr hout] at hx'
        cases hx'
      rw [← haddress, ← hwidth] at hstored hfits
      obtain ⟨c, hc, hencodes⟩ := Memory.load?_of_stored hstored hfits
      have hends := hlater x' m' hm' load offset' next' frame'
      rw [hc] at hends
      refine ⟨c, hends, hwidth ▸ hencodes, ?_⟩
      rintro t rfl -
      exact hencodes.bitsOf_eq
    · intro x' hx' m' hm' load offset' next' frame' hapart
      have hends := hlater x' m' hm' load offset' next' frame'
      rw [Memory.load?_of_stored_apart (Memory.store?_eq_some hx') hapart] at hends
      exact ⟨_, step_loads obs code ha hx load offset' next' frame', hends⟩

/-- Eight bytes of which two in the last half are overwritten; an access behind the end traps, also
with the largest static offset. -/
theorem halfword_accesses_exact :
    let x : Memory := { bytes := ⟨#[1, 2, 3, 4, 5, 6, 7, 8]⟩ }
    let m : Machine := { store := { memories := #[x], instances := #[{ memories := [0] }] } }
    let frame : Frame := { slots := #[0, 3, 0xabcdfffe], localCount := 0, top := 2 }
    m.store.memoryOf? 0 = some 0 ∧ m.store.memories[0]? = some x ∧
      (∃ x', Outcome.Stores 0 1 frame m (some x')
          (step {} 0 {} (.store (.packed16 .i64) 2) 1 frame m) ∧
        x.Stored 5 2 0xfffe x' ∧
        ∃ c, Outcome.Loads 1 { slots := #[0, 1], localCount := 0, top := 1 }
            { m with store := m.store.updateMemory 0 fun _ => x' } (some c)
            (step {} 0 {} (.load (.packed16 .i32 .signed) 4) 1
              { slots := #[0, 1], localCount := 0, top := 1 }
              { m with store := m.store.updateMemory 0 fun _ => x' }) ∧
          c.Encodes .i32 (-2)) ∧
      Outcome.Loads 1 frame m none
        (step {} 0 {} (.load (.full .f32) 0xffffffff) 1 frame m) := by
  intro x m frame
  obtain ⟨hloads, hstores⟩ := accesses_exact {} 0 {} m 0 x rfl rfl
  have haddress : (frame.operand 1).index + 2 = 5 := by decide
  have hoperand : frame.peek.toNat % 2 ^ (8 * (StoreOp.packed16 .i64).width) = 0xfffe := by
    decide
  have hreading : (LoadOp.packed16 .i32 .signed).reading 0xfffe = -2 := by decide
  refine ⟨rfl, rfl, ?_, ?_⟩
  · obtain ⟨left, hstore⟩ := hstores (.packed16 .i64) 2 1 frame
    cases left with
    | none => exact absurd (hstore.outside.mp rfl) (by decide)
    | some x' =>
      have hstored := hstore.stored x' rfl
      obtain ⟨c, hc, hencodes, -⟩ := hstore.loaded x' rfl
        { m with store := m.store.updateMemory 0 fun _ => x' } rfl (.packed16 .i32 .signed) 4 1
        { slots := #[0, 1], localCount := 0, top := 1 } rfl rfl
      rw [haddress, hoperand] at hstored
      rw [hoperand, hreading] at hencodes
      exact ⟨x', hstore.ends, hstored, c, hc, hencodes⟩
  · obtain ⟨found, hload⟩ := hloads (.full .f32) 0xffffffff 1 frame
    have hends := hload.ends
    rw [hload.outside.mpr (by decide)] at hends
    exact hends

end WasmEngine

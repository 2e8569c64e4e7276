import WasmEngine.Proofs.Execution.FrameContents

/-!
# The storage of a frame

A frame that is used as its preconditions ask behaves as two lists that know nothing of each other:
the locals, and a stack of operands. A frame needs one slot for each local, one for each operand that
it may hold at once, and one more. They lie within the frame itself if they fit there and are
allocated otherwise; whichever it is, and whatever the storage holds at first, no other slot is read
or written.
-/
namespace WasmEngine
set_option autoImplicit false

namespace Frame

/-- The number of slots within a frame itself. -/
def inlineSlots : Nat := 16

/-- Where the slots of a frame lie. -/
inductive Layout where
  | inline
  | heap
  deriving DecidableEq, Inhabited

namespace Layout

/-- Slots are allocated for a frame that needs more of them than there are within it. -/
def choose (needed : Nat) : Layout := if needed ≤ inlineSlots then .inline else .heap

/-- The number of slots of a frame that needs `needed` of them. -/
def slots (needed : Nat) : Layout → Nat
  | .inline => inlineSlots
  | .heap => needed

theorem needed_le_slots (needed : Nat) : needed ≤ (choose needed).slots needed := by
  unfold choose
  split
  · next h => exact h
  · exact Nat.le_refl needed

end Layout

/-- The frame of a call in a storage that holds anything: the arguments and `declared` zeros are
written behind the first slot. -/
def enterIn (storage : Array Cell) (arguments : List Cell) (declared : Nat) : Frame :=
  let locals := arguments ++ List.replicate declared 0
  { slots := storage.mapIdx fun i old => if i = 0 then old else (locals[i - 1]?).getD old
    localCount := locals.length
    top := locals.length }

/-- What is done with a frame. -/
inductive Operation where
  | push (c : Cell)
  | pop
  | peek
  | setTop (c : Cell)
  /-- Reads the operand `n` places below the topmost. -/
  | operand (n : Nat)
  | drop (n : Nat)
  /-- Reads the `n` topmost operands from the bottom up, as the callee of a call does. -/
  | topmost (n : Nat)
  | localAt (i : Nat)
  | setLocal (i : Nat) (c : Cell)
  deriving DecidableEq, Inhabited

/-- The operation concerns the locals; the others concern the operands. -/
def Operation.onLocals : Operation → Bool
  | .localAt _ | .setLocal _ _ => true
  | _ => false

/-- The cells that an operation gives, and the frame after it. -/
def perform (f : Frame) : Operation → List Cell × Frame
  | .push c => ([], f.push c)
  | .pop => ([f.pop.1], f.pop.2)
  | .peek => ([f.peek], f)
  | .setTop c => ([], f.setTop c)
  | .operand n => ([f.operand n], f)
  | .drop n => ([], f.drop n)
  | .topmost n => (f.topmost n, f)
  | .localAt i => ([f.localAt i], f)
  | .setLocal i c => ([], f.setLocal i c)

/-- The slots that an operation reads or writes. -/
def touched (f : Frame) : Operation → List Nat
  | .push _ => [f.top + 1]
  | .pop | .peek | .setTop _ => [f.top]
  | .operand n => [f.top - n]
  | .drop _ => []
  | .topmost n => (List.range n).map (f.top + 1 - n + ·)
  | .localAt i | .setLocal i _ => [i + 1]

/-- What the operations of a script give, one after another, and the state after the last one. -/
def follow {State : Type} (perform : State → Operation → List Cell × State) :
    State → List Operation → List (List Cell) × State
  | s, [] => ([], s)
  | s, op :: script =>
    let (cells, s) := perform s op
    let (rest, s) := follow perform s script
    (cells :: rest, s)

def run (f : Frame) (script : List Operation) : List (List Cell) × Frame := follow perform f script

/-- The slots that a script reads or writes. -/
def accesses (f : Frame) : List Operation → List Nat
  | [] => []
  | op :: script => f.touched op ++ accesses (f.perform op).2 script

/-- Locals, and a stack of operands, the topmost first. -/
structure Contents where
  locals : List Cell
  items : List Cell := []
  deriving DecidableEq, Inhabited

namespace Contents

/-- What an operation takes for granted in a frame for `maxHeight` operands. -/
def Allows (maxHeight : Nat) (s : Contents) : Operation → Prop
  | .push _ => s.items.length < maxHeight
  | .pop | .peek | .setTop _ => s.items ≠ []
  | .operand n => n < s.items.length
  | .drop n | .topmost n => n ≤ s.items.length
  | .localAt i | .setLocal i _ => i < s.locals.length

instance decidableAllows (maxHeight : Nat) (s : Contents) :
    (op : Operation) → Decidable (s.Allows maxHeight op)
  | .push _ => inferInstanceAs (Decidable (s.items.length < maxHeight))
  | .pop | .peek | .setTop _ => inferInstanceAs (Decidable (s.items ≠ []))
  | .operand n => inferInstanceAs (Decidable (n < s.items.length))
  | .drop n | .topmost n => inferInstanceAs (Decidable (n ≤ s.items.length))
  | .localAt i | .setLocal i _ => inferInstanceAs (Decidable (i < s.locals.length))

def perform (s : Contents) : Operation → List Cell × Contents
  | .push c => ([], { s with items := c :: s.items })
  | .pop => (s.items.take 1, { s with items := s.items.tail })
  | .peek => (s.items.take 1, s)
  | .setTop c => ([], { s with items := c :: s.items.tail })
  | .operand n => (s.items[n]?.toList, s)
  | .drop n => ([], { s with items := s.items.drop n })
  | .topmost n => ((s.items.take n).reverse, s)
  | .localAt i => (s.locals[i]?.toList, s)
  | .setLocal i c => ([], { s with locals := s.locals.set i c })

def run (s : Contents) (script : List Operation) : List (List Cell) × Contents :=
  follow perform s script

/-- Every operation of a script finds what it takes for granted. -/
def Admits (maxHeight : Nat) : Contents → List Operation → Prop
  | _, [] => True
  | s, op :: script => s.Allows maxHeight op ∧ Admits maxHeight (s.perform op).2 script

instance decidableAdmits (maxHeight : Nat) : (s : Contents) → (script : List Operation) →
    Decidable (s.Admits maxHeight script)
  | _, [] => .isTrue trivial
  | s, op :: script =>
    have := decidableAdmits maxHeight (s.perform op).2 script
    inferInstanceAs (Decidable (s.Allows maxHeight op ∧ Admits maxHeight (s.perform op).2 script))

end Contents

/-- The frame with another storage. -/
def withSlots (f : Frame) (storage : Array Cell) : Frame := { f with slots := storage }

/-- What can be seen of a frame is what the lists hold. -/
structure Shows (f : Frame) (s : Contents) : Prop where
  locals : f.locals = s.locals
  operands : f.operands = s.items.reverse
  height : f.height = s.items.length

/-- The script reads and writes the listed slots only: the others stay as they are, and a frame with
another storage gives the same if the listed slots hold the same. -/
structure UsesOnly (f : Frame) (script : List Operation) (listed : List Nat) : Prop where
  writes : ∀ i : Nat, i ∉ listed → (f.run script).2.slots[i]? = f.slots[i]?
  reads : ∀ storage : Array Cell, (∀ i ∈ listed, storage[i]? = f.slots[i]?) →
    ((f.withSlots storage).run script).1 = (f.run script).1

/-! ## Steps -/

section
variable {f : Frame} {room maxHeight : Nat} {s : Contents} {op : Operation}

/-- An operation that finds what it takes for granted does to the frame what it does to the lists. -/
theorem perform_represents (h : f.Represents room s.locals s.items) (hroom : maxHeight ≤ room)
    (ha : s.Allows maxHeight op) :
    (f.perform op).1 = (s.perform op).1 ∧
      (f.perform op).2.Represents room (s.perform op).2.locals (s.perform op).2.items := by
  obtain ⟨locals, items⟩ := s
  dsimp only at h
  cases op with
  | push c => exact ⟨rfl, h.push (Nat.lt_of_lt_of_le ha hroom)⟩
  | pop =>
    obtain ⟨c, rest, rfl⟩ := List.exists_cons_of_ne_nil ha
    exact ⟨congrArg (fun c => [c]) h.peek_eq, h.drop (Nat.succ_le_succ (Nat.zero_le _))⟩
  | peek =>
    obtain ⟨c, rest, rfl⟩ := List.exists_cons_of_ne_nil ha
    exact ⟨congrArg (fun c => [c]) h.peek_eq, h⟩
  | setTop c =>
    obtain ⟨d, rest, rfl⟩ := List.exists_cons_of_ne_nil ha
    exact ⟨rfl, h.setTop⟩
  | operand n =>
    have hn : items[n]? = some items[n] := List.getElem?_eq_getElem ha
    refine ⟨?_, h⟩
    dsimp only [Frame.perform, Contents.perform]
    rw [h.operand_eq hn, hn, Option.toList_some]
  | drop n => exact ⟨rfl, h.drop ha⟩
  | topmost n => exact ⟨h.topmost_eq ha, h⟩
  | localAt i =>
    have hi : locals[i]? = some locals[i] := List.getElem?_eq_getElem ha
    refine ⟨?_, h⟩
    dsimp only [Frame.perform, Contents.perform]
    rw [h.localAt_eq hi, hi, Option.toList_some]
  | setLocal i c => exact ⟨rfl, h.setLocal ha⟩

/-- It touches a local or an operand that is or comes to be there. -/
theorem touched_bound (h : f.Represents room s.locals s.items) (hheight : s.items.length ≤ maxHeight)
    (ha : s.Allows maxHeight op) :
    ∀ i ∈ f.touched op, 0 < i ∧ i < s.locals.length + maxHeight + 1 := by
  have ht := h.top
  obtain ⟨locals, items⟩ := s
  dsimp only at ht hheight
  intro i hi
  cases op with
  | push c =>
    obtain rfl := List.mem_singleton.mp hi
    have hpush : items.length < maxHeight := ha
    dsimp only
    omega
  | pop | peek | setTop c =>
    obtain rfl := List.mem_singleton.mp hi
    have hpos : 0 < items.length := List.length_pos_iff.mpr ha
    dsimp only
    omega
  | operand n =>
    obtain rfl := List.mem_singleton.mp hi
    have hn : n < items.length := ha
    dsimp only
    omega
  | drop n => cases hi
  | topmost n =>
    obtain ⟨k, hk, rfl⟩ := List.mem_map.mp hi
    have hn : n ≤ items.length := ha
    rw [List.mem_range] at hk
    dsimp only
    omega
  | localAt k | setLocal k c =>
    obtain rfl := List.mem_singleton.mp hi
    have hk : k < locals.length := ha
    dsimp only
    omega

/-- An operation leaves every slot as it is but the one that it touches. -/
theorem perform_writes (hin : ∀ i ∈ f.touched op, i < f.slots.size) {i : Nat}
    (hi : i ∉ f.touched op) : (f.perform op).2.slots[i]? = f.slots[i]? := by
  cases op with
  | push c =>
    have hlt : f.top + 1 < f.slots.size := hin _ (List.mem_singleton_self _)
    have hne : f.top + 1 ≠ i := fun he => hi (List.mem_singleton.mpr he.symm)
    dsimp only [Frame.perform, Frame.push]
    rw [if_pos hlt, Array.getElem?_setIfInBounds_ne hne]
  | setTop c | setLocal k c =>
    exact Array.getElem?_setIfInBounds_ne fun he => hi (List.mem_singleton.mpr he.symm)
  | _ => rfl

/-- Another storage that holds the same in a slot holds the same there after a write to it. -/
theorem getElem?_setIfInBounds_congr {slots storage : Array Cell} {i k : Nat} {c : Cell}
    (hi : storage[i]? = slots[i]?) (hk : storage[k]? = slots[k]?) :
    (storage.setIfInBounds k c)[i]? = (slots.setIfInBounds k c)[i]? := by
  rw [Array.getElem?_setIfInBounds, Array.getElem?_setIfInBounds]
  by_cases hki : k = i
  · subst hki
    rw [if_pos rfl, if_pos rfl]
    by_cases hlt : k < slots.size
    · rw [Array.getElem?_eq_getElem hlt] at hk
      rw [if_pos (Array.getElem?_eq_some_iff.mp hk).1, if_pos hlt]
    · rw [Array.getElem?_eq_none (Nat.le_of_not_lt hlt)] at hk
      rw [if_neg (Nat.not_lt.mpr (Array.getElem?_eq_none_iff.mp hk)), if_neg hlt]
  · rw [if_neg hki, if_neg hki, hi]

theorem slot_withSlots {storage : Array Cell} {i : Nat} (h : storage[i]? = f.slots[i]?) :
    (f.withSlots storage).slot i = f.slot i := by
  simp only [withSlots, slot, Array.getD_eq_getD_getElem?, h]

/-- What an operation gives depends on the slot that it touches only, and storages that agree in a
slot agree there after it. -/
theorem perform_reads (hin : ∀ i ∈ f.touched op, i < f.slots.size) {storage : Array Cell}
    (hs : ∀ i ∈ f.touched op, storage[i]? = f.slots[i]?) :
    ((f.withSlots storage).perform op).1 = (f.perform op).1 ∧
      ∃ storage' : Array Cell,
        ((f.withSlots storage).perform op).2 = (f.perform op).2.withSlots storage' ∧
        ∀ i : Nat, storage[i]? = f.slots[i]? → storage'[i]? = (f.perform op).2.slots[i]? := by
  cases op with
  | push c =>
    have hlt : f.top + 1 < f.slots.size := hin _ (List.mem_singleton_self _)
    have hat := hs _ (List.mem_singleton_self _)
    have hlt' : f.top + 1 < storage.size := by
      rw [Array.getElem?_eq_getElem hlt] at hat
      exact (Array.getElem?_eq_some_iff.mp hat).1
    refine ⟨rfl, storage.setIfInBounds (f.top + 1) c, ?_, fun i hi => ?_⟩
    · dsimp only [Frame.perform, Frame.push, withSlots]
      rw [if_pos hlt, if_pos hlt']
    · dsimp only [Frame.perform, Frame.push]
      rw [if_pos hlt]
      exact getElem?_setIfInBounds_congr hi hat
  | pop | peek | operand n | localAt k =>
    have hslot := slot_withSlots (hs _ (List.mem_singleton_self _))
    exact ⟨congrArg (fun c => [c]) hslot, storage, rfl, fun _ hi => hi⟩
  | setTop c | setLocal k c =>
    exact ⟨rfl, _, rfl, fun _ hi =>
      getElem?_setIfInBounds_congr hi (hs _ (List.mem_singleton_self _))⟩
  | drop n => exact ⟨rfl, storage, rfl, fun _ hi => hi⟩
  | topmost n =>
    refine ⟨List.map_congr_left fun i hi => ?_, storage, rfl, fun _ hi => hi⟩
    exact slot_withSlots (hs _ (List.mem_map_of_mem hi))

end

/-- The frame carries the lists and has the slots that it needs for `maxHeight` operands. -/
structure Carries (f : Frame) (maxHeight : Nat) (s : Contents) : Prop where
  represents : ∃ room, maxHeight ≤ room ∧ f.Represents room s.locals s.items
  height : s.items.length ≤ maxHeight

theorem run_cons (f : Frame) (op : Operation) (script : List Operation) :
    f.run (op :: script) = ((f.perform op).1 :: ((f.perform op).2.run script).1,
      ((f.perform op).2.run script).2) := rfl

namespace Contents

theorem run_cons (s : Contents) (op : Operation) (script : List Operation) :
    s.run (op :: script) = ((s.perform op).1 :: ((s.perform op).2.run script).1,
      ((s.perform op).2.run script).2) := rfl

theorem length_locals_perform (s : Contents) (op : Operation) :
    (s.perform op).2.locals.length = s.locals.length := by
  cases op with
  | setLocal i c => exact List.length_set
  | _ => rfl

theorem length_locals_run (s : Contents) (script : List Operation) :
    (s.run script).2.locals.length = s.locals.length := by
  induction script generalizing s with
  | nil => rfl
  | cons op script ih =>
    rw [run_cons]
    exact (ih _).trans (s.length_locals_perform op)

theorem length_items_perform {s : Contents} {maxHeight : Nat} {op : Operation}
    (h : s.items.length ≤ maxHeight) (ha : s.Allows maxHeight op) :
    (s.perform op).2.items.length ≤ maxHeight := by
  cases op with
  | push c => exact ha
  | pop =>
    dsimp only [perform]
    rw [List.length_tail]
    omega
  | setTop c =>
    have hpos : 0 < s.items.length := List.length_pos_iff.mpr ha
    dsimp only [perform]
    rw [List.length_cons, List.length_tail]
    omega
  | drop n =>
    dsimp only [perform]
    rw [List.length_drop]
    omega
  | _ => exact h

/-- Operations on the operands leave the locals alone. -/
theorem locals_perform (s : Contents) {op : Operation} (h : op.onLocals = false) :
    (s.perform op).2.locals = s.locals := by
  cases op <;> first | rfl | cases h

/-- Operations on the locals leave the operands alone. -/
theorem items_perform (s : Contents) {op : Operation} (h : op.onLocals = true) :
    (s.perform op).2.items = s.items := by
  cases op <;> first | rfl | cases h

end Contents

namespace Carries

variable {f : Frame} {maxHeight : Nat} {s : Contents} {op : Operation}

theorem shows (h : f.Carries maxHeight s) : f.Shows s := by
  obtain ⟨room, -, hr⟩ := h.represents
  refine ⟨?_, ?_, hr.height_eq⟩
  · apply List.ext_getElem?
    intro i
    rw [Frame.locals, List.getElem?_map, hr.localCount]
    by_cases hi : i < s.locals.length
    · rw [List.getElem?_range hi, Option.map_some, hr.localAt_eq (List.getElem?_eq_getElem hi),
        List.getElem?_eq_getElem hi]
    · rw [List.getElem?_eq_none (by simpa using hi), List.getElem?_eq_none (Nat.le_of_not_lt hi),
        Option.map_none]
  · -- The operands from the bottom up are all that a call could take as arguments.
    have ht := hr.top
    have hall := hr.topmost_eq (Nat.le_refl s.items.length)
    rw [List.take_length] at hall
    rw [← hall, Frame.operands, Frame.topmost, hr.height_eq, hr.localCount]
    refine List.map_congr_left fun i _ => ?_
    congr 1
    omega

theorem needed_le (h : f.Carries maxHeight s) :
    s.locals.length + maxHeight + 1 ≤ f.slots.size := by
  obtain ⟨room, hroom, hr⟩ := h.represents
  rw [hr.size]
  omega

theorem bound (h : f.Carries maxHeight s) (ha : s.Allows maxHeight op) :
    ∀ i ∈ f.touched op, 0 < i ∧ i < s.locals.length + maxHeight + 1 := by
  obtain ⟨room, -, hr⟩ := h.represents
  exact touched_bound hr h.height ha

theorem top_lt (h : f.Carries maxHeight s) : f.top < s.locals.length + maxHeight + 1 := by
  obtain ⟨room, -, hr⟩ := h.represents
  have hheight := h.height
  rw [hr.top]
  omega

theorem inside (h : f.Carries maxHeight s) (ha : s.Allows maxHeight op) :
    ∀ i ∈ f.touched op, i < f.slots.size :=
  fun i hi => Nat.lt_of_lt_of_le (h.bound ha i hi).2 h.needed_le

theorem perform (h : f.Carries maxHeight s) (ha : s.Allows maxHeight op) :
    (f.perform op).1 = (s.perform op).1 ∧ (f.perform op).2.Carries maxHeight (s.perform op).2 := by
  obtain ⟨room, hroom, hr⟩ := h.represents
  obtain ⟨hcells, hnext⟩ := perform_represents hr hroom ha
  exact ⟨hcells, ⟨room, hroom, hnext⟩, Contents.length_items_perform h.height ha⟩

/-! ## Scripts -/

variable {script : List Operation}

theorem run (h : f.Carries maxHeight s) (ha : s.Admits maxHeight script) :
    (f.run script).1 = (s.run script).1 ∧ (f.run script).2.Carries maxHeight (s.run script).2 := by
  induction script generalizing f s with
  | nil => exact ⟨rfl, h⟩
  | cons op script ih =>
    obtain ⟨hop, hscript⟩ := ha
    obtain ⟨hcells, hnext⟩ := h.perform hop
    obtain ⟨hrest, hlast⟩ := ih hnext hscript
    rw [run_cons, Contents.run_cons, hcells, hrest]
    exact ⟨rfl, hlast⟩

theorem accesses_bound (h : f.Carries maxHeight s) (ha : s.Admits maxHeight script) :
    ∀ i ∈ f.accesses script, 0 < i ∧ i < s.locals.length + maxHeight + 1 := by
  induction script generalizing f s with
  | nil => exact fun i hi => absurd hi List.not_mem_nil
  | cons op script ih =>
    obtain ⟨hop, hscript⟩ := ha
    intro i hi
    obtain hi | hi := List.mem_append.mp hi
    · exact h.bound hop i hi
    · rw [← s.length_locals_perform op]
      exact ih (h.perform hop).2 hscript i hi

theorem run_writes (h : f.Carries maxHeight s) (ha : s.Admits maxHeight script) {i : Nat}
    (hi : i ∉ f.accesses script) : (f.run script).2.slots[i]? = f.slots[i]? := by
  induction script generalizing f s with
  | nil => rfl
  | cons op script ih =>
    obtain ⟨hop, hscript⟩ := ha
    rw [accesses, List.mem_append, not_or] at hi
    exact (ih (h.perform hop).2 hscript hi.2).trans (perform_writes (h.inside hop) hi.1)

theorem run_reads (h : f.Carries maxHeight s) (ha : s.Admits maxHeight script) {storage : Array Cell}
    (hs : ∀ i ∈ f.accesses script, storage[i]? = f.slots[i]?) :
    ((f.withSlots storage).run script).1 = (f.run script).1 := by
  induction script generalizing f s storage with
  | nil => rfl
  | cons op script ih =>
    obtain ⟨hop, hscript⟩ := ha
    obtain ⟨hcells, storage', hnext, hagree⟩ := perform_reads (h.inside hop)
      fun i hi => hs i (List.mem_append_left _ hi)
    have hlater : ∀ i ∈ (f.perform op).2.accesses script,
        storage'[i]? = (f.perform op).2.slots[i]? := fun i hi =>
      hagree i (hs i (List.mem_append_right _ hi))
    have hrest := ih (h.perform hop).2 hscript hlater
    rw [run_cons, run_cons, hcells, hnext, hrest]

theorem usesOnly (h : f.Carries maxHeight s) (ha : s.Admits maxHeight script) :
    f.UsesOnly script (f.accesses script) :=
  ⟨fun _ hi => h.run_writes ha hi, fun _ hs => h.run_reads ha hs⟩

end Carries

section
variable {storage : Array Cell} {arguments : List Cell} {declared maxHeight : Nat}

theorem enterIn_slots (i : Nat) :
    (enterIn storage arguments declared).slots[i]? = (storage[i]?).map fun old =>
      if i = 0 then old else ((arguments ++ List.replicate declared 0)[i - 1]?).getD old :=
  Array.getElem?_mapIdx

/-- Only the slots of the locals are written. -/
theorem enterIn_slots_other {i : Nat} (h : i = 0 ∨ arguments.length + declared < i) :
    (enterIn storage arguments declared).slots[i]? = storage[i]? := by
  rw [enterIn_slots]
  obtain rfl | h := h
  · simp
  · rw [List.getElem?_eq_none (by simp; omega)]
    simp

theorem enterIn_holds (h : arguments.length + declared + maxHeight + 1 ≤ storage.size) :
    (enterIn storage arguments declared).Carries maxHeight
      { locals := arguments ++ List.replicate declared 0 } := by
  refine ⟨⟨storage.size - (arguments.length + declared + 1), by omega, ?_⟩, Nat.zero_le _⟩
  exact {
    size := by
      simp only [enterIn, Array.size_mapIdx, List.length_append, List.length_replicate]
      omega
    localCount := rfl
    top := rfl
    room := Nat.zero_le _
    locals_eq := fun i hi => by
      have hlt : i + 1 < storage.size := by
        rw [List.length_append, List.length_replicate] at hi
        omega
      rw [slot, Array.getD_eq_getD_getElem?, enterIn_slots, Array.getElem?_eq_getElem hlt,
        Option.map_some, if_neg (Nat.succ_ne_zero i), Nat.add_sub_cancel,
        List.getElem?_eq_getElem hi, Option.getD_some, Option.getD_some, List.getD_eq_getElem?_getD,
        List.getElem?_eq_getElem hi, Option.getD_some]
    operands_eq := fun i hi => absurd hi (Nat.not_lt_zero i) }

/-- Behind the declared locals zeroed slots hold what the declared locals do. -/
theorem getElem?_append_zeros (i : Nat) :
    (arguments ++ List.replicate (declared + maxHeight) 0)[i]? =
      if i < arguments.length + declared + maxHeight then
        some (((arguments ++ List.replicate declared 0)[i]?).getD 0)
      else none := by
  by_cases hi : i < arguments.length
  · rw [List.getElem?_append_left hi, List.getElem?_append_left hi, if_pos (by omega),
      List.getElem?_eq_getElem hi, Option.getD_some]
  have hi := Nat.le_of_not_lt hi
  rw [List.getElem?_append_right hi, List.getElem?_append_right hi, List.getElem?_replicate,
    List.getElem?_replicate]
  by_cases hneeded : i - arguments.length < declared + maxHeight
  · rw [if_pos hneeded, if_pos (by omega)]
    split <;> rfl
  · rw [if_neg hneeded, if_neg (by omega)]

/-- The frame of a call has as many slots as it needs, zeroed at first. -/
theorem enter_eq_enterIn :
    enter arguments declared maxHeight =
      enterIn (Array.replicate (arguments.length + declared + maxHeight + 1) 0) arguments
        declared := by
  have hlist : (#[0] ++ arguments.toArray ++ Array.replicate (declared + maxHeight) 0 : Array Cell) =
      (0 :: (arguments ++ List.replicate (declared + maxHeight) 0)).toArray := by
    simp [← List.toArray_replicate]
  have hslots : (0 :: (arguments ++ List.replicate (declared + maxHeight) 0)).toArray =
      (enterIn (Array.replicate (arguments.length + declared + maxHeight + 1) 0) arguments
        declared).slots := by
    apply Array.ext_getElem?
    intro i
    rw [enterIn_slots, List.getElem?_toArray, Array.getElem?_replicate]
    cases i with
    | zero => simp
    | succ i =>
      rw [List.getElem?_cons_succ, Nat.add_sub_cancel, getElem?_append_zeros]
      by_cases hi : i < arguments.length + declared + maxHeight
      · rw [if_pos hi, if_pos (Nat.succ_lt_succ hi)]
        rfl
      · rw [if_neg hi, if_neg fun hlt => hi (Nat.lt_of_succ_lt_succ hlt)]
        rfl
  have hlocals : (arguments ++ List.replicate declared (0 : Cell)).length =
      arguments.length + declared := by
    rw [List.length_append, List.length_replicate]
  unfold enter
  dsimp only
  rw [hlist, hslots, ← hlocals]
  rfl

end

end Frame

/-- A frame refines two independent lists. Let it be entered with any arguments, declared locals and
height, in a storage of at least as many slots as it needs, which may hold anything; the layout that
is chosen has them, and the frame of a call is this frame in zeroed slots. Then every script whose
operations find what they take for granted gives the same cells, and leaves the same locals and
operands, as on the arguments followed by zeros and an empty stack. An operation on the operands
changes no local, and one on the locals no operand. The topmost slot is always one of those needed,
and the slots that are read or written are among them, behind the first. -/
theorem frame_refines_lists (arguments : List Cell) (declared maxHeight : Nat) :
    let needed := arguments.length + declared + maxHeight + 1
    let s : Frame.Contents := { locals := arguments ++ List.replicate declared 0 }
    needed ≤ (Frame.Layout.choose needed).slots needed ∧
    Frame.enter arguments declared maxHeight =
      Frame.enterIn (Array.replicate needed 0) arguments declared ∧
    ∀ storage : Array Cell, needed ≤ storage.size →
      let f := Frame.enterIn storage arguments declared
      f.Shows s ∧
      (∀ i : Nat, i = 0 ∨ arguments.length + declared < i → f.slots[i]? = storage[i]?) ∧
      ∀ script, s.Admits maxHeight script →
        (f.run script).1 = (s.run script).1 ∧
        (f.run script).2.Shows (s.run script).2 ∧
        (∀ op, (s.run script).2.Allows maxHeight op →
          (op.onLocals = false →
            ((f.run script).2.perform op).2.locals = (f.run script).2.locals) ∧
          (op.onLocals = true →
            ((f.run script).2.perform op).2.operands = (f.run script).2.operands)) ∧
        (f.run script).2.top < needed ∧
        (∀ i ∈ f.accesses script, 0 < i ∧ i < needed) ∧
        f.UsesOnly script (f.accesses script) := by
  intro needed s
  refine ⟨Frame.Layout.needed_le_slots needed, Frame.enter_eq_enterIn, fun storage hstorage => ?_⟩
  have hlocals : s.locals.length = arguments.length + declared := by
    rw [List.length_append, List.length_replicate]
  have hf : (Frame.enterIn storage arguments declared).Carries maxHeight s :=
    Frame.enterIn_holds hstorage
  refine ⟨hf.shows, fun i hi => Frame.enterIn_slots_other hi, fun script hscript => ?_⟩
  obtain ⟨hcells, hlast⟩ := hf.run hscript
  refine ⟨hcells, hlast.shows, fun op hop => ⟨fun honly => ?_, fun honly => ?_⟩, ?_, ?_,
    hf.usesOnly hscript⟩
  · rw [(hlast.perform hop).2.shows.locals, hlast.shows.locals, Frame.Contents.locals_perform _ honly]
  · rw [(hlast.perform hop).2.shows.operands, hlast.shows.operands,
      Frame.Contents.items_perform _ honly]
  · have htop := hlast.top_lt
    rwa [Frame.Contents.length_locals_run, hlocals] at htop
  · rw [show needed = s.locals.length + maxHeight + 1 by rw [hlocals]]
    exact hf.accesses_bound hscript

/-- A frame of thirteen locals for two operands takes all of the inline slots, which hold anything at
first. At full height the last local is written, and the operands stay. -/
theorem full_inline_frame :
    let storage : Array Cell := Array.replicate 16 0xdead
    let f := Frame.enterIn storage [0xa1, 0xa2] 11
    let s : Frame.Contents := { locals := [0xa1, 0xa2] ++ List.replicate 11 0 }
    let script : List Frame.Operation :=
      [.push 1, .push 2, .setLocal 12 7, .topmost 2, .localAt 12, .localAt 11, .operand 1, .pop]
    Frame.Layout.choose 16 = .inline ∧ storage.size = 16 ∧ s.Admits 2 script ∧
      (f.run script).1 = [[], [], [], [1, 2], [7], [0], [1], [2]] ∧
      (f.run script).2.operands = [1] ∧ ∀ i ∈ f.accesses script, 0 < i ∧ i < 16 := by
  intro storage f s script
  have hsize : storage.size = 16 := Array.size_replicate
  have hscript : s.Admits 2 script := by decide
  obtain ⟨-, -, hframes⟩ := frame_refines_lists [0xa1, 0xa2] 11 2
  obtain ⟨-, -, hscripts⟩ := hframes storage (Nat.le_of_eq hsize.symm)
  obtain ⟨hcells, hshows, -, -, haccesses, -⟩ := hscripts script hscript
  exact ⟨rfl, hsize, hscript, hcells.trans (by decide), hshows.operands.trans (by decide), haccesses⟩

end WasmEngine

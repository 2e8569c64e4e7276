import WasmEngine.Frame

/-!
# The contents of a frame

A frame stores its locals and operands in one array. `Frame.Represents` relates it to two lists: the
locals, and the operands from the top down. Every operation of a frame is the obvious operation on
one of the lists, and as long as the operands fit into the storage it leaves the other alone.
-/
namespace WasmEngine
set_option autoImplicit false

/-- The frame has room for `maxHeight` operands and holds the given locals and operands, the
topmost operand first. -/
structure Frame.Represents (f : Frame) (maxHeight : Nat) (locals operands : List Cell) : Prop where
  size : f.slots.size = locals.length + maxHeight + 1
  localCount : f.localCount = locals.length
  top : f.top = locals.length + operands.length
  room : operands.length ≤ maxHeight
  locals_eq : ∀ i, i < locals.length → f.slot (i + 1) = locals.getD i 0
  operands_eq : ∀ i, i < operands.length → f.slot (f.top - i) = operands.getD i 0

namespace Frame

/-- A new frame holds its arguments and zeros, and no operands. -/
theorem enter_represents (arguments : List Cell) (declared maxHeight : Nat) :
    (enter arguments declared maxHeight).Represents maxHeight
      (arguments ++ List.replicate declared 0) [] where
  size := by simp [enter]; omega
  localCount := by simp [enter]
  top := by simp [enter]
  room := Nat.zero_le _
  locals_eq i hi := by
    rw [List.length_append, List.length_replicate] at hi
    simp only [enter, slot, Array.getD_eq_getD_getElem?, List.getD_eq_getElem?_getD]
    rw [Array.append_assoc, Array.getElem?_append_right (by simp)]
    by_cases ha : i < arguments.length
    · rw [Array.getElem?_append_left (by simpa using ha), List.getElem?_append_left ha]
      simp
    · rw [Array.getElem?_append_right (by simpa using ha), List.getElem?_append_right (by omega)]
      simp only [List.size_toArray, List.length_cons, List.length_nil, Array.getElem?_replicate,
        List.getElem?_replicate]
      rw [if_pos (by omega), if_pos (by omega)]
  operands_eq i hi := absurd hi (Nat.not_lt_zero i)

namespace Represents

variable {f : Frame} {maxHeight : Nat} {locals operands : List Cell} {c : Cell}

theorem height_eq (h : f.Represents maxHeight locals operands) : f.height = operands.length := by
  rw [height, h.top, h.localCount]
  omega

theorem top_lt (h : f.Represents maxHeight locals operands) : f.top < f.slots.size := by
  have hr := h.room
  rw [h.top, h.size]
  omega

theorem peek_eq (h : f.Represents maxHeight locals (c :: operands)) : f.peek = c :=
  h.operands_eq 0 (Nat.zero_lt_succ _)

theorem operand_eq (h : f.Represents maxHeight locals operands) {n : Nat}
    (hn : operands[n]? = some c) : f.operand n = c := by
  obtain ⟨hlt, he⟩ := List.getElem?_eq_some_iff.mp hn
  rw [operand, h.operands_eq n hlt, List.getD_eq_getElem?_getD, hn, Option.getD_some]

theorem localAt_eq (h : f.Represents maxHeight locals operands) {i : Nat}
    (hi : locals[i]? = some c) : f.localAt i = c := by
  obtain ⟨hlt, he⟩ := List.getElem?_eq_some_iff.mp hi
  rw [localAt, h.locals_eq i hlt, List.getD_eq_getElem?_getD, hi, Option.getD_some]

theorem drop (h : f.Represents maxHeight locals operands) {n : Nat} (hn : n ≤ operands.length) :
    (f.drop n).Represents maxHeight locals (operands.drop n) where
  size := h.size
  localCount := h.localCount
  top := by
    show f.top - n = _
    rw [h.top, List.length_drop]
    omega
  room := by
    have hr := h.room
    rw [List.length_drop]
    omega
  locals_eq := h.locals_eq
  operands_eq i hi := by
    rw [List.length_drop] at hi
    have ho := h.operands_eq (n + i) (by omega)
    show f.slot (f.top - n - i) = _
    rw [Nat.sub_sub, ho, List.getD_eq_getElem?_getD, List.getD_eq_getElem?_getD, List.getElem?_drop]

/-- What a write to one slot leaves in another. -/
theorem slot_set_ne (slots : Array Cell) (localCount top : Nat) {i j : Nat} (hij : i ≠ j) :
    slot ⟨slots.setIfInBounds i c, localCount, top⟩ j = slot ⟨slots, localCount, top⟩ j := by
  simp only [slot, Array.getD_eq_getD_getElem?, Array.getElem?_setIfInBounds_ne hij]

theorem slot_set_self (slots : Array Cell) (localCount top : Nat) {i : Nat} (hi : i < slots.size) :
    slot ⟨slots.setIfInBounds i c, localCount, top⟩ i = c := by
  simp only [slot, Array.getD_eq_getD_getElem?, Array.getElem?_setIfInBounds_self_of_lt hi,
    Option.getD_some]

theorem setTop {d : Cell} (h : f.Represents maxHeight locals (d :: operands)) :
    (f.setTop c).Represents maxHeight locals (c :: operands) where
  size := (Array.size_setIfInBounds ..).trans h.size
  localCount := h.localCount
  top := h.top
  room := h.room
  locals_eq i hi := by
    have ht := h.top
    rw [List.length_cons] at ht
    rw [Frame.setTop, slot_set_ne _ _ _ (by omega)]
    exact h.locals_eq i hi
  operands_eq i hi := by
    have ht := h.top
    rw [List.length_cons] at ht hi
    show slot ⟨f.slots.setIfInBounds f.top c, f.localCount, f.top⟩ (f.top - i) = _
    cases i with
    | zero => exact slot_set_self _ _ _ h.top_lt
    | succ i =>
      rw [slot_set_ne _ _ _ (by omega)]
      exact h.operands_eq (i + 1) hi

theorem push (h : f.Represents maxHeight locals operands) (hr : operands.length < maxHeight) :
    (f.push c).Represents maxHeight locals (c :: operands) := by
  have ht := h.top
  have hs := h.size
  have hlt : f.top + 1 < f.slots.size := by omega
  rw [Frame.push, if_pos hlt]
  exact {
    size := (Array.size_setIfInBounds ..).trans h.size
    localCount := h.localCount
    top := by
      show f.top + 1 = _
      rw [List.length_cons, ht]
      omega
    room := hr
    locals_eq := fun i hi => by
      rw [slot_set_ne _ _ _ (by omega)]
      exact h.locals_eq i hi
    operands_eq := fun i hi => by
      rw [List.length_cons] at hi
      cases i with
      | zero => exact slot_set_self _ _ _ hlt
      | succ i =>
        rw [slot_set_ne _ _ _ (by show f.top + 1 ≠ f.top + 1 - (i + 1); omega)]
        show f.slot (f.top + 1 - (i + 1)) = _
        rw [Nat.add_sub_add_right]
        exact h.operands_eq i (by omega) }

theorem setLocal (h : f.Represents maxHeight locals operands) {i : Nat} (hi : i < locals.length) :
    (f.setLocal i c).Represents maxHeight (locals.set i c) operands where
  size := by rw [List.length_set]; exact (Array.size_setIfInBounds ..).trans h.size
  localCount := by rw [List.length_set]; exact h.localCount
  top := by rw [List.length_set]; exact h.top
  room := h.room
  locals_eq j hj := by
    rw [List.length_set] at hj
    rw [Frame.setLocal, List.getD_eq_getElem?_getD]
    by_cases hij : i = j
    · subst hij
      have hlt : i + 1 < f.slots.size := by rw [h.size]; omega
      rw [slot_set_self _ _ _ hlt, List.getElem?_set_self hi, Option.getD_some]
    · rw [slot_set_ne _ _ _ (by omega), List.getElem?_set_ne hij, ← List.getD_eq_getElem?_getD]
      exact h.locals_eq j hj
  operands_eq j hj := by
    have ht := h.top
    rw [Frame.setLocal, slot_set_ne _ _ _ (by show i + 1 ≠ f.top - j; omega)]
    exact h.operands_eq j hj

/-- A branch that carries nothing drops operands. -/
theorem unwind_zero (h : f.Represents maxHeight locals operands) {n : Nat}
    (hn : n ≤ operands.length) :
    (f.unwind n 0).Represents maxHeight locals (operands.drop n) :=
  h.drop hn

/-- A branch that carries an operand drops those below it. -/
theorem unwind_one (h : f.Represents maxHeight locals (c :: operands)) {n : Nat}
    (hn : n ≤ operands.length) :
    (f.unwind n 1).Represents maxHeight locals (c :: operands.drop n) := by
  have hd := h.drop (Nat.le_succ_of_le hn)
  -- The slot that becomes the top holds some operand already.
  obtain ⟨d, hdrop⟩ : ∃ d, (c :: operands).drop n = d :: operands.drop n := by
    cases n with
    | zero => exact ⟨c, rfl⟩
    | succ n =>
      have hlt : n < operands.length := hn
      exact ⟨operands[n], by rw [List.drop_succ_cons, List.drop_eq_getElem_cons hlt]⟩
  rw [hdrop] at hd
  rw [unwind, if_neg Nat.one_ne_zero, h.peek_eq]
  exact hd.setTop

/-- The arguments of a call are the topmost operands, the deepest one first. -/
theorem topmost_eq (h : f.Represents maxHeight locals operands) {n : Nat}
    (hn : n ≤ operands.length) : f.topmost n = (operands.take n).reverse := by
  apply List.ext_getElem?
  intro i
  have ht := h.top
  by_cases hi : i < n
  · have ho := h.operands_eq (n - 1 - i) (by omega)
    have hslot : f.top + 1 - n + i = f.top - (n - 1 - i) := by omega
    rw [topmost, List.getElem?_map, List.getElem?_range hi, Option.map_some, hslot, ho,
      List.getElem?_reverse (by rw [List.length_take]; omega), List.length_take,
      Nat.min_eq_left hn, List.getElem?_take_of_lt (by omega), List.getD_eq_getElem?_getD,
      List.getElem?_eq_getElem (by omega), Option.getD_some]
  · rw [List.getElem?_eq_none (by simp [topmost]; omega),
      List.getElem?_eq_none (by simp; omega)]

end Represents

end Frame

end WasmEngine

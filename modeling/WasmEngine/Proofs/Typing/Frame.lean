import Mathlib.Data.List.Forall2
import WasmEngine.Proofs.Execution.FrameContents
import WasmEngine.Proofs.Typing.Numeric

/-!
# Typed frames

A frame has types when its locals and operands are well-formed cells of given types, as many as
there are types. The operations of a frame keep it typed, with the types one expects.
-/
namespace WasmEngine
set_option autoImplicit false

/-- The cells are well-formed for the types, one for each. -/
def Fits (cells : List Cell) (types : List ValType) : Prop :=
  List.Forall₂ (fun c t => Cell.wellFormed t c = true) cells types

namespace Fits

variable {cells : List Cell} {types : List ValType}

theorem get (h : Fits cells types) {n : Nat} {t : ValType} (hn : types[n]? = some t) :
    ∃ c, cells[n]? = some c ∧ c.wellFormed t = true := by
  induction h generalizing n with
  | nil => simp at hn
  | cons hc _ ih =>
    cases n with
    | zero =>
      rw [List.getElem?_cons_zero, Option.some.injEq] at hn
      exact ⟨_, rfl, hn ▸ hc⟩
    | succ n => exact ih hn

theorem set (h : Fits cells types) {n : Nat} {t : ValType} {c : Cell} (hn : types[n]? = some t)
    (hc : c.wellFormed t = true) : Fits (cells.set n c) types := by
  induction h generalizing n with
  | nil => simp at hn
  | cons hd hrest ih =>
    cases n with
    | zero =>
      rw [List.getElem?_cons_zero, Option.some.injEq] at hn
      exact .cons (hn ▸ hc) hrest
    | succ n => exact .cons hd (ih hn)

theorem append {cells' : List Cell} {types' : List ValType} (h : Fits cells types)
    (h' : Fits cells' types') : Fits (cells ++ cells') (types ++ types') :=
  List.rel_append h h'

/-- Zeros fit any types. -/
theorem zeros (types : List ValType) : Fits (List.replicate types.length 0) types := by
  induction types with
  | nil => exact .nil
  | cons t rest ih => exact .cons (Cell.wellFormed_zero t) ih

end Fits

/-- The frame has room for `maxHeight` operands, and its locals and operands have the given types,
the type of the topmost operand first. -/
def Frame.HasTypes (f : Frame) (maxHeight : Nat) (locals operands : List ValType) : Prop :=
  ∃ ls os, f.Represents maxHeight ls os ∧ Fits ls locals ∧ Fits os operands

namespace Frame.HasTypes

variable {f : Frame} {maxHeight : Nat} {locals types : List ValType} {t : ValType} {c : Cell}

theorem enter {arguments : List Cell} {inputs : List ValType} (h : Fits arguments inputs)
    (declared : List ValType) (maxHeight : Nat) :
    (Frame.enter arguments declared.length maxHeight).HasTypes maxHeight (inputs ++ declared) [] :=
  ⟨_, _, enter_represents arguments declared.length maxHeight, h.append (.zeros declared), .nil⟩

theorem height_eq (h : f.HasTypes maxHeight locals types) : f.height = types.length := by
  obtain ⟨ls, os, hr, -, hos⟩ := h
  rw [hr.height_eq, hos.length_eq]

theorem localCount_eq (h : f.HasTypes maxHeight locals types) : f.localCount = locals.length := by
  obtain ⟨ls, os, hr, hls, -⟩ := h
  rw [hr.localCount, hls.length_eq]

/-- Another operand finds a slot in the storage. -/
theorem room (h : f.HasTypes maxHeight locals types) (hlt : types.length < maxHeight) :
    f.top + 1 < f.slots.size := by
  obtain ⟨ls, os, hr, -, hos⟩ := h
  have hl := hos.length_eq
  rw [hr.top, hr.size]
  omega

theorem operand (h : f.HasTypes maxHeight locals types) {n : Nat} (hn : types[n]? = some t) :
    (f.operand n).wellFormed t = true := by
  obtain ⟨ls, os, hr, -, hos⟩ := h
  obtain ⟨d, hd, hw⟩ := hos.get hn
  rw [hr.operand_eq hd]
  exact hw

theorem peek (h : f.HasTypes maxHeight locals (t :: types)) : f.peek.wellFormed t = true := by
  have h0 : (f.operand 0).wellFormed t = true := h.operand rfl
  exact h0

theorem localAt (h : f.HasTypes maxHeight locals types) {i : Nat} (hi : locals[i]? = some t) :
    (f.localAt i).wellFormed t = true := by
  obtain ⟨ls, os, hr, hls, -⟩ := h
  obtain ⟨d, hd, hw⟩ := hls.get hi
  rw [hr.localAt_eq hd]
  exact hw

theorem drop {taken : List ValType} (h : f.HasTypes maxHeight locals (taken ++ types)) :
    (f.drop taken.length).HasTypes maxHeight locals types := by
  obtain ⟨ls, os, hr, hls, hos⟩ := h
  have hl := hos.length_eq
  rw [List.length_append] at hl
  exact ⟨ls, _, hr.drop (by omega), hls, List.forall₂_drop_append os taken types hos⟩

theorem pop (h : f.HasTypes maxHeight locals (t :: types)) :
    (f.drop 1).HasTypes maxHeight locals types := by
  have hd : f.HasTypes maxHeight locals ([t] ++ types) := h
  exact hd.drop

theorem setTop {u : ValType} (h : f.HasTypes maxHeight locals (u :: types))
    (hc : c.wellFormed t = true) : (f.setTop c).HasTypes maxHeight locals (t :: types) := by
  obtain ⟨ls, os, hr, hls, hos⟩ := h
  rcases hos with _ | ⟨hd, hrest⟩
  exact ⟨ls, _, hr.setTop, hls, .cons hc hrest⟩

theorem push (h : f.HasTypes maxHeight locals types) (hroom : types.length < maxHeight)
    (hc : c.wellFormed t = true) : (f.push c).HasTypes maxHeight locals (t :: types) := by
  obtain ⟨ls, os, hr, hls, hos⟩ := h
  have hl := hos.length_eq
  exact ⟨ls, _, hr.push (by omega), hls, .cons hc hos⟩

theorem setLocal (h : f.HasTypes maxHeight locals types) {i : Nat} (hi : locals[i]? = some t)
    (hc : c.wellFormed t = true) : (f.setLocal i c).HasTypes maxHeight locals types := by
  obtain ⟨ls, os, hr, hls, hos⟩ := h
  have hl := hls.length_eq
  obtain ⟨hlt, -⟩ := List.getElem?_eq_some_iff.mp hi
  exact ⟨_, os, hr.setLocal (by omega), hls.set hi hc, hos⟩

theorem unwind_zero (h : f.HasTypes maxHeight locals types) {n : Nat} (hn : n ≤ types.length) :
    (f.unwind n 0).HasTypes maxHeight locals (types.drop n) := by
  obtain ⟨ls, os, hr, hls, hos⟩ := h
  have hl := hos.length_eq
  exact ⟨ls, _, hr.unwind_zero (by omega), hls, List.forall₂_drop n hos⟩

theorem unwind_one (h : f.HasTypes maxHeight locals (t :: types)) {n : Nat}
    (hn : n ≤ types.length) : (f.unwind n 1).HasTypes maxHeight locals (t :: types.drop n) := by
  obtain ⟨ls, os, hr, hls, hos⟩ := h
  rcases hos with _ | ⟨hd, hrest⟩
  have hl := hrest.length_eq
  exact ⟨ls, _, hr.unwind_one (by omega), hls, .cons hd (List.forall₂_drop n hrest)⟩

/-- The arguments of a call fit the inputs of the callee. -/
theorem topmost {inputs : List ValType}
    (h : f.HasTypes maxHeight locals (inputs.reverse ++ types)) :
    Fits (f.topmost inputs.length) inputs := by
  obtain ⟨ls, os, hr, -, hos⟩ := h
  have hl := hos.length_eq
  rw [List.length_append, List.length_reverse] at hl
  have htake := List.forall₂_take_append os inputs.reverse types hos
  rw [List.length_reverse] at htake
  rw [hr.topmost_eq (by omega)]
  have hrev := List.rel_reverse htake
  rw [List.reverse_reverse] at hrev
  exact hrev

end Frame.HasTypes

end WasmEngine

import Mathlib.Algebra.Group.Nat.Defs
import WasmEngine.Proofs.Linking.Checks

/-!
# The contents of memories and tables

What a memory holds byte by byte, and a table element by element, after a number, a list of bytes or
a list of elements has been written into it, and after it has grown. A number is held with the
lowest byte first: `Memory.Holds` says so of each byte on its own.
-/
namespace WasmEngine
set_option autoImplicit false

/-- An entry that is known is replaced by a known one. -/
theorem modify_eq_const {α : Type} {l : Array α} {k : Nat} {x : α} (hx : l[k]? = some x)
    (f : α → α) : l.modify k f = l.modify k fun _ => f x := by
  obtain ⟨-, rfl⟩ := Array.getElem?_eq_some_iff.mp hx
  rfl

theorem getElem?_modify_const {α : Type} {l : Array α} {k : Nat} {x : α} (hx : l[k]? = some x)
    (y : α) : (l.modify k fun _ => y)[k]? = some y := by
  rw [Array.getElem?_modify, if_pos rfl, hx, Option.map_some]

/-- Of two replacements the last one counts. -/
theorem modify_const_modify_const {α : Type} (l : Array α) (k : Nat) (x y : α) :
    ((l.modify k fun _ => x).modify k fun _ => y) = l.modify k fun _ => y := by
  apply Array.ext_getElem?
  intro j
  rw [Array.getElem?_modify, Array.getElem?_modify, Array.getElem?_modify]
  split
  · rw [Option.map_map]
    rfl
  · rfl

theorem two_pow_add_eight (n : Nat) : 2 ^ (8 * (n + 1)) = 256 * 2 ^ (8 * n) := by
  rw [Nat.mul_comm 256]
  exact Nat.pow_add 2 (8 * n) 8

theorem zeros_eq (n : Nat) : zeros n = ⟨Array.replicate n 0⟩ := by
  fun_induction zeros n with
  | case1 => rfl
  | case2 n hn half heven ih =>
    have hhalf : half = ⟨Array.replicate (n / 2) 0⟩ := ih
    apply ByteArray.ext
    rw [hhalf, ByteArray.data_append, Array.replicate_append_replicate]
    congr
    omega
  | case3 n hn half hodd ih =>
    have hhalf : half = ⟨Array.replicate (n / 2) 0⟩ := ih
    apply ByteArray.ext
    rw [hhalf, ByteArray.data_push, ByteArray.data_append, Array.replicate_append_replicate,
      ← Array.replicate_succ]
    congr
    omega

namespace Memory

variable (x : Memory)

/-- Outside a memory all bytes count as zero. -/
theorem byte_of_size_le {k : Nat} (h : x.size ≤ k) : x.byte k = 0 :=
  dif_neg (Nat.not_lt.mpr h)

/-- One byte is set, if the memory has it. -/
theorem byte_set (address : Nat) (b : UInt8) (k : Nat) :
    byte { x with bytes := x.bytes.set! address b } k =
      if k = address ∧ k < x.size then b else x.byte k := by
  by_cases hk : k < x.size
  · have hk' : k < (x.bytes.set! address b).size := by
      rw [ByteArray.size_set!]
      exact hk
    have hset : byte { x with bytes := x.bytes.set! address b } k = (x.bytes.set! address b)[k] :=
      dif_pos hk'
    have hbyte : x.byte k = x.bytes[k] := dif_pos hk
    rw [hset, hbyte]
    by_cases hka : k = address
    · subst hka
      rw [if_pos ⟨rfl, hk⟩, ByteArray.getElem_set!_self _ _ _ hk]
    · rw [if_neg fun h => hka h.1, ByteArray.getElem_set!_ne _ _ _ _ (Ne.symm hka) hk]
  · have hsize : size { x with bytes := x.bytes.set! address b } = x.size := ByteArray.size_set! ..
    rw [if_neg fun h => hk h.2, byte_of_size_le x (Nat.not_lt.mp hk), byte_of_size_le]
    omega

/-- The bytes of a list come to stand from the address on, as far as the memory reaches. -/
theorem byte_writeBytes (bytes : List UInt8) : ∀ (x : Memory) (address k : Nat),
    (x.writeBytes address bytes).byte k =
      if address ≤ k ∧ k < x.size then bytes[k - address]?.getD (x.byte k) else x.byte k := by
  induction bytes with
  | nil => intro x address k; simp [writeBytes]
  | cons b rest ih =>
    intro x address k
    have hsize : size { x with bytes := x.bytes.set! address b } = x.size := ByteArray.size_set! ..
    rw [writeBytes, ih, byte_set, hsize]
    rcases Nat.lt_trichotomy k address with hlt | rfl | hgt
    · rw [if_neg (by omega), if_neg (by omega), if_neg (by omega)]
    · rw [if_neg (by omega), Nat.sub_self]
      simp
    · rw [if_neg (show ¬(k = address ∧ k < x.size) by omega),
        show k - address = (k - (address + 1)) + 1 by omega, List.getElem?_cons_succ]
      simp only [Nat.succ_le_iff, hgt, Nat.le_of_lt hgt, true_and]

/-- The lowest bytes of a number come to stand from the address on, as far as the memory reaches. -/
theorem byte_write (width : Nat) : ∀ (x : Memory) (address value k : Nat),
    (x.write address width value).byte k =
      if address ≤ k ∧ k < address + width ∧ k < x.size then
        (value / 2 ^ (8 * (k - address)) % 256).toUInt8
      else x.byte k := by
  induction width with
  | zero => intro x address value k; rw [write, if_neg (by omega)]
  | succ width ih =>
    intro x address value k
    have hsize : size { x with bytes := x.bytes.set! address (value % 256).toUInt8 } = x.size :=
      ByteArray.size_set! ..
    rw [write, ih, byte_set, hsize]
    rcases Nat.lt_trichotomy k address with hlt | rfl | hgt
    · rw [if_neg (by omega), if_neg (by omega), if_neg (by omega)]
    · rw [if_neg (by omega), Nat.sub_self, Nat.mul_zero, Nat.pow_zero, Nat.div_one]
      by_cases hk : k < x.size
      · rw [if_pos ⟨rfl, hk⟩, if_pos ⟨Nat.le_refl k, by omega, hk⟩]
      · rw [if_neg (by omega), if_neg (by omega)]
    · -- the byte belongs to the rest of the number
      have hplace : 8 * (k - address) = 8 * (k - (address + 1) + 1) := by omega
      rw [if_neg (show ¬(k = address ∧ k < x.size) by omega), hplace, two_pow_add_eight,
        ← Nat.div_div_eq_div_mul]
      by_cases hk : k < address + 1 + width ∧ k < x.size
      · rw [if_pos (by omega), if_pos (by omega)]
      · rw [if_neg (by omega), if_neg (by omega)]

/-- The number that `width` bytes from an address on hold, lowest first. -/
structure Holds (x : Memory) (address width n : Nat) : Prop where
  lt : n < 2 ^ (8 * width)
  byte : ∀ j, j < width → (x.byte (address + j)).toNat = n / 2 ^ (8 * j) % 256

/-- It is the number that is read there. -/
theorem holds_iff (width : Nat) : ∀ address n : Nat,
    x.Holds address width n ↔ n = x.read address width := by
  induction width with
  | zero =>
    intro address n
    constructor
    · intro h
      exact Nat.lt_one_iff.mp h.lt
    · rintro rfl
      exact ⟨Nat.one_pos, fun j hj => absurd hj (Nat.not_lt_zero j)⟩
  | succ width ih =>
    intro address n
    have hpow := two_pow_add_eight width
    rw [read]
    constructor
    · intro h
      have hlow := h.byte 0 (Nat.succ_pos width)
      rw [Nat.add_zero, Nat.mul_zero, Nat.pow_zero, Nat.div_one] at hlow
      have hlt := h.lt
      have hrest : x.Holds (address + 1) width (n / 256) := by
        refine ⟨by omega, fun j hj => ?_⟩
        rw [show address + 1 + j = address + (j + 1) by omega, h.byte (j + 1) (by omega),
          two_pow_add_eight, Nat.div_div_eq_div_mul]
      rw [← (ih (address + 1) (n / 256)).mp hrest, hlow]
      omega
    · intro hn
      have hrest := (ih (address + 1) _).mpr rfl
      have hlow := (x.byte address).toNat_lt
      have hlt := hrest.lt
      refine ⟨by omega, fun j hj => ?_⟩
      cases j with
      | zero =>
        rw [Nat.add_zero, Nat.mul_zero, Nat.pow_zero, Nat.div_one]
        omega
      | succ j =>
        rw [show address + (j + 1) = address + 1 + j by omega, hrest.byte j (by omega),
          two_pow_add_eight, ← Nat.div_div_eq_div_mul]
        congr
        omega

theorem holds_read (address width : Nat) : x.Holds address width (x.read address width) :=
  (x.holds_iff width address _).mpr rfl

variable {x}

/-- A number is read from the bytes of its range only. -/
theorem read_congr {x' : Memory} {address width : Nat}
    (h : ∀ k, address ≤ k → k < address + width → x'.byte k = x.byte k) :
    x'.read address width = x.read address width := by
  have hread := x'.holds_read address width
  refine (x.holds_iff width address _).mp ⟨hread.lt, fun j hj => ?_⟩
  rw [← h (address + j) (by omega) (by omega)]
  exact hread.byte j hj

/-- What is stored inside the memory stands there, cut to the width. -/
theorem holds_write {address width : Nat} (h : address + width ≤ x.size) (value : Nat) :
    (x.write address width value).Holds address width (value % 2 ^ (8 * width)) := by
  refine ⟨Nat.mod_lt _ (Nat.two_pow_pos _), fun j hj => ?_⟩
  have hsplit : 2 ^ (8 * width) = 2 ^ (8 * j) * (2 ^ (8 * (width - (j + 1))) * 256) := by
    rw [Nat.mul_comm _ 256, ← two_pow_add_eight, show 8 * width = 8 * j + 8 * (width - (j + 1) + 1) by
      omega]
    exact Nat.pow_add 2 _ _
  have hbyte : (value / 2 ^ (8 * j) % 256).toUInt8.toNat = value / 2 ^ (8 * j) % 256 :=
    UInt8.toNat_ofNat_of_lt' (Nat.mod_lt _ (by decide))
  rw [byte_write, if_pos (by omega), Nat.add_sub_cancel_left, hbyte, hsplit,
    Nat.mod_mul_right_div_self, Nat.mod_mod_of_dvd _ (Nat.dvd_mul_left ..)]

/-- A new memory is zeroed. -/
theorem byte_create (l : Limits) (pagesLimit k : Nat) : (create l pagesLimit).byte k = 0 := by
  unfold byte create
  dsimp only
  split
  · next h =>
    simp only [zeros_eq]
    exact Array.getElem_replicate _
  · rfl

end Memory

namespace Table

/-- The elements of a list come to stand from the index on, as far as the table reaches. -/
theorem getElem?_write (elements : List TableElement) : ∀ (t : Table) (index k : Nat),
    (t.write index elements).elements[k]? = (t.elements[k]?).map fun old =>
      if index ≤ k then (elements[k - index]?).elim old some else old := by
  induction elements with
  | nil => intro t index k; simp [write]
  | cons e rest ih =>
    intro t index k
    rw [write, ih]
    dsimp only
    rw [Array.getElem?_setIfInBounds]
    rcases Nat.lt_trichotomy k index with hlt | rfl | hgt
    · rw [if_neg (by omega)]
      refine Option.map_congr fun old _ => ?_
      rw [if_neg (by omega), if_neg (by omega)]
    · rw [if_pos rfl]
      by_cases hk : k < t.elements.size
      · rw [if_pos hk, Array.getElem?_eq_getElem hk, Option.map_some, Option.map_some,
          if_neg (Nat.not_succ_le_self k), if_pos (Nat.le_refl k), Nat.sub_self]
        rfl
      · rw [if_neg hk, Array.getElem?_eq_none (Nat.le_of_not_lt hk)]
        rfl
    · rw [if_neg (by omega)]
      refine Option.map_congr fun old _ => ?_
      rw [if_pos (by omega), if_pos (by omega),
        show k - index = (k - (index + 1)) + 1 by omega, List.getElem?_cons_succ]

end Table

end WasmEngine

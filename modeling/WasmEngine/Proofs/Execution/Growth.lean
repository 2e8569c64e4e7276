import WasmEngine.Proofs.Execution.Accesses
import WasmEngine.Proofs.Linking.Limits

/-!
# Growth of memories and tables

A memory or a table grows exactly if the sum of its size and the addend, which does not wrap around,
stays below the declared maximum, the ceiling and, for a memory, the number of addressable pages. It
then keeps what it holds and is continued with zeros or null elements; otherwise nothing changes.
Growing twice is the same as growing once by the sum.
-/
namespace WasmEngine
set_option autoImplicit false

namespace Limits

theorem le_top_iff {l : Limits} {size ceiling : Nat} :
    size ≤ l.top ceiling ↔ (∀ most, l.max = some most → size ≤ most) ∧ size ≤ ceiling := by
  refine ⟨fun h => ⟨fun most hmost => Nat.le_trans h (top_le hmost ceiling), ?_⟩,
    fun h => le_top h.2 h.1⟩
  unfold top at h
  split at h
  · exact h
  · exact Nat.le_trans h (Nat.min_le_right ..)

end Limits

namespace Extent

/-- An entity of this extent may have `delta` more: its maximum and its ceiling leave room. -/
structure Admits (e : Extent) (delta : Nat) : Prop where
  max : ∀ most, e.limits.max = some most → e.size + delta ≤ most
  ceiling : e.size + delta ≤ e.ceiling

/-- The extent with `delta` more. -/
def plus (e : Extent) (delta : Nat) : Extent := { e with size := e.size + delta }

section
variable {e : Extent} {delta first second : Nat}

theorem admits_iff : e.Admits delta ↔ e.size + delta ≤ e.limits.top e.ceiling := by
  rw [Limits.le_top_iff]
  exact ⟨fun h => ⟨h.max, h.ceiling⟩, fun h => ⟨h.1, h.2⟩⟩

instance : Decidable (e.Admits delta) := decidable_of_iff _ admits_iff.symm

theorem plus_admits : (e.plus first).Admits second ↔ e.Admits (first + second) := by
  rw [admits_iff, admits_iff, plus, Nat.add_assoc]

theorem Admits.of_add (h : e.Admits (first + second)) : e.Admits first := by
  rw [admits_iff] at h ⊢
  omega

end

end Extent

/-! ### Growth in a store -/

/-- How an entity of the extent `e` grows, as `grow` has it. The store with another entity in its
place is given by `put`, and `continued` tells the entity with more behind what it held. -/
structure GrowsExactly {α : Type} (grow : Store → Nat → Option Nat × Store) (put : α → Store)
    (continued : Nat → α → Prop) (e : Extent) (s : Store) : Prop where
  admitted : ∀ delta, e.Admits delta →
    ∃ x', continued delta x' ∧ grow s delta = (some e.size, put x')
  refused : ∀ delta, ¬e.Admits delta → grow s delta = (none, s)
  composes : ∀ first second, (grow s first).1.isSome ∧ (grow (grow s first).2 second).1.isSome ↔
    (grow s (first + second)).1.isSome
  same : ∀ first second, (grow s (first + second)).1.isSome →
    (grow (grow s first).2 second).2 = (grow s (first + second)).2

/-- A kind of entity that grows: where a store keeps it, what continues it, and how it grows. -/
structure Growing (α : Type) where
  all : Store → Array α
  put : Store → Nat → α → Store
  extent : α → Extent
  extend : α → Nat → α
  grow : Store → Nat → Nat → Option Nat × Store

namespace Growing

/-- Growing gives the old size and continues the entity, or it gives nothing; and continuing in two
portions is continuing at once. -/
structure Lawful {α : Type} (K : Growing α) : Prop where
  all_put : ∀ {s a x}, (K.all s)[a]? = some x → ∀ y, (K.all (K.put s a y))[a]? = some y
  put_put : ∀ s a x y, K.put (K.put s a x) a y = K.put s a y
  extent_extend : ∀ x delta, K.extent (K.extend x delta) = (K.extent x).plus delta
  extend_extend : ∀ x first second,
    K.extend (K.extend x first) second = K.extend x (first + second)
  grow_eq : ∀ {s a x}, (K.all s)[a]? = some x → ∀ delta, K.grow s a delta =
    if (K.extent x).Admits delta then (some (K.extent x).size, K.put s a (K.extend x delta))
    else (none, s)

section
variable {α : Type} {K : Growing α} {s : Store} {a : Nat} {x : α}

/-- Growing once more goes on from where the entity has grown to. -/
theorem Lawful.grow_grown (h : K.Lawful) (hx : (K.all s)[a]? = some x) (first second : Nat) :
    K.grow (K.put s a (K.extend x first)) a second =
      if (K.extent x).Admits (first + second) then
        (some ((K.extent x).size + first), K.put s a (K.extend x (first + second)))
      else (none, K.put s a (K.extend x first)) := by
  rw [h.grow_eq (h.all_put hx _), h.extent_extend, h.extend_extend, h.put_put]
  simp only [Extent.plus_admits]
  rfl

theorem Lawful.growsExactly (h : K.Lawful) (hx : (K.all s)[a]? = some x)
    {continued : Nat → α → Prop} (hcontinued : ∀ delta, continued delta (K.extend x delta)) :
    GrowsExactly (fun s => K.grow s a) (K.put s a) continued (K.extent x) s := by
  have hgrow := h.grow_eq hx
  have hgrown := h.grow_grown hx
  have htwice : ∀ first second,
      ((K.grow s a first).1.isSome ∧ (K.grow (K.grow s a first).2 a second).1.isSome ↔
        (K.grow s a (first + second)).1.isSome) ∧
      ((K.grow s a (first + second)).1.isSome →
        (K.grow (K.grow s a first).2 a second).2 = (K.grow s a (first + second)).2) := by
    intro first second
    rw [hgrow first, hgrow (first + second)]
    by_cases hsum : (K.extent x).Admits (first + second)
    · rw [if_pos hsum, if_pos hsum.of_add, hgrown, if_pos hsum]
      exact ⟨iff_of_true ⟨rfl, rfl⟩ rfl, fun _ => rfl⟩
    · rw [if_neg hsum]
      refine ⟨iff_of_false ?_ Bool.false_ne_true, fun h => absurd h Bool.false_ne_true⟩
      split
      · rw [hgrown, if_neg hsum]
        exact fun h => Bool.false_ne_true h.2
      · exact fun h => Bool.false_ne_true h.1
  refine ⟨fun delta hd => ?_, fun delta hd => ?_, fun first second => (htwice first second).1,
    fun first second => (htwice first second).2⟩
  · exact ⟨_, hcontinued delta, (hgrow delta).trans (if_pos hd)⟩
  · exact (hgrow delta).trans (if_neg hd)

end

end Growing

/-! ### Memories -/

namespace Memory

/-- The memory `x'` is `x` continued with `delta` pages of zeros. -/
structure GrownBy (x : Memory) (delta : Nat) (x' : Memory) : Prop where
  limits : x'.limits = x.limits
  pagesLimit : x'.pagesLimit = x.pagesLimit
  bytes : x'.bytes.data = x.bytes.data ++ Array.replicate (delta * 65536) 0
  size : x'.size = (x.pages + delta) * 65536

def growing : Growing Memory where
  all := Store.memories
  put s a x := s.updateMemory a fun _ => x
  extent := extent
  extend := extend
  grow := Store.growMemory

variable {x : Memory}

theorem grownBy_extend (h : pageSize ∣ x.size) (delta : Nat) : x.GrownBy delta (x.extend delta) := by
  refine ⟨rfl, rfl, ?_, ?_⟩
  · unfold extend
    rw [zeros_eq, ByteArray.data_append]
    rfl
  · have hpages : x.pages * 65536 = x.size := Nat.div_mul_cancel h
    have hsize : (x.extend delta).size = x.size + delta * 65536 := x.size_extend delta
    rw [hsize, ← hpages, Nat.add_mul]

/-- A memory of whole pages is continued by resizing it. -/
theorem extend_eq_resize (h : pageSize ∣ x.size) (delta : Nat) :
    x.extend delta = x.resize (x.pages + delta) := by
  have hpages : x.pages * pageSize = x.size := Nat.div_mul_cancel h
  unfold resize
  simp only [Nat.add_mul, hpages, Nat.add_sub_cancel_left]
  split
  · next hle =>
    have hnone : delta * pageSize = 0 := by omega
    unfold extend
    congr 1
    apply ByteArray.ext
    rw [hnone, ByteArray.data_append, zeros_eq, Nat.add_zero, ByteArray.data_extract]
    simp [size, ← ByteArray.size_data]
  · rfl

/-- Zeros added in two portions are the zeros added at once. -/
theorem extend_extend (x : Memory) (first second : Nat) :
    (x.extend first).extend second = x.extend (first + second) := by
  unfold extend
  congr 1
  apply ByteArray.ext
  rw [ByteArray.append_assoc]
  simp only [ByteArray.data_append, zeros_eq, Array.replicate_append_replicate, Nat.add_mul]

theorem growing_lawful : growing.Lawful where
  all_put hx y := getElem?_modify_const hx y
  put_put s a x y := by
    simp only [growing, Store.updateMemory, modify_const_modify_const]
  extent_extend x delta := by
    have hpages : (x.extend delta).pages = x.pages + delta := pages_eq_add (x.size_extend delta)
    simp only [growing, extent, hpages, Extent.plus]
    rfl
  extend_extend := extend_extend
  grow_eq {s a x} hx delta := by
    have hcan : x.canGrow delta = decide (x.extent.Admits delta) :=
      decide_eq_decide.mpr (Extent.admits_iff (e := x.extent)).symm
    have hx : s.memories[a]? = some x := hx
    by_cases h : x.extent.Admits delta
    · simp [growing, Store.growMemory, Store.updateMemory, hx, hcan, h, modify_eq_const hx]
      rfl
    · simp [growing, Store.growMemory, hx, hcan, h]

end Memory

/-! ### Tables -/

namespace Table

/-- The table `t'` is `t` continued with `delta` null elements. -/
structure GrownBy (t : Table) (delta : Nat) (t' : Table) : Prop where
  limits : t'.limits = t.limits
  elementsLimit : t'.elementsLimit = t.elementsLimit
  elements : t'.elements = t.elements ++ Array.replicate delta none

def growing : Growing Table where
  all := Store.tables
  put s a t := s.updateTable a fun _ => t
  extent := extent
  extend := extend
  grow := Store.growTable

theorem growing_lawful : growing.Lawful where
  all_put ht u := getElem?_modify_const ht u
  put_put s a t u := by
    simp only [growing, Store.updateTable, modify_const_modify_const]
  extent_extend t delta := by
    simp [growing, extent, extend, size, Extent.plus]
  extend_extend t first second := by
    simp [growing, extend, Array.append_assoc, Array.replicate_append_replicate]
  grow_eq {s a t} ht delta := by
    have hcan : t.canGrow delta = decide (t.extent.Admits delta) :=
      decide_eq_decide.mpr (Extent.admits_iff (e := t.extent)).symm
    have ht : s.tables[a]? = some t := ht
    by_cases h : t.extent.Admits delta
    · simp [growing, Store.growTable, Store.updateTable, ht, hcan, h, modify_eq_const ht]
      rfl
    · simp [growing, Store.growTable, ht, hcan, h]

end Table

/-! ### The instruction -/

/-- The instruction that grows memory 0 leaves the old number of pages, or minus one. -/
theorem step_memoryGrow (obs : Observers) (i : InstanceId) (code : Code) (next : Nat)
    (frame : Frame) {m : Machine} {a : MemoryAddr} (ha : m.store.memoryOf? i = some a) :
    ∃ c, c.Encodes .i32 ((m.store.growMemory a frame.peek.index).1.elim (-1) Nat.cast) ∧
      step obs i code .memoryGrow next frame m = .goto next (frame.setTop c)
        { m with store := (m.store.growMemory a frame.peek.index).2 } := by
  refine ⟨_, Cell.encodes_ofWord .i32 _, ?_⟩
  unfold step
  dsimp only
  rw [ha]
  dsimp only
  cases (m.store.growMemory a frame.peek.index).1 with
  | none => rfl
  | some pages =>
    rw [Option.elim_some, Option.elim_some, BitVec.ofInt_natCast]
    rfl

/-- How the instruction that grows memory 0 ends, where that is the memory `x` under the address `a`. -/
structure MemoryGrowExact (obs : Observers) (i : InstanceId) (code : Code) (next : Nat) (frame : Frame)
    (m : Machine) (a : MemoryAddr) (x : Memory) : Prop where
  admitted : x.extent.Admits frame.peek.index → ∃ x' c, x.GrownBy frame.peek.index x' ∧
    c.Encodes .i32 x.pages ∧ step obs i code .memoryGrow next frame m =
      .goto next (frame.setTop c) { m with store := m.store.updateMemory a fun _ => x' }
  refused : ¬x.extent.Admits frame.peek.index → ∃ c, c.Encodes .i32 (-1) ∧
    step obs i code .memoryGrow next frame m = .goto next (frame.setTop c) m

/-- Growth is exact, atomic and additive. A memory of whole pages, or a table, grows by `delta`
exactly if its size and `delta` add up to no more than its declared maximum, its ceiling and, for a
memory, 65536 pages; it then gives its old size, and it is the entity with `delta` zeroed pages or
null elements behind what it held. Otherwise it gives nothing and the store is the same. The
instruction that grows memory 0 does not trap: it leaves the old number of pages, or minus one in
the type `i32`. Two portions can be added one after another exactly if their sum can be added at
once, and the store is the same then. -/
theorem growth_exact :
    (∀ (s : Store) (a : MemoryAddr) (x : Memory), s.memories[a]? = some x → pageSize ∣ x.size →
      GrowsExactly (fun s => s.growMemory a) (fun x' => s.updateMemory a fun _ => x') x.GrownBy
        x.extent s) ∧
    (∀ (s : Store) (a : TableAddr) (t : Table), s.tables[a]? = some t →
      GrowsExactly (fun s => s.growTable a) (fun t' => s.updateTable a fun _ => t') t.GrownBy
        t.extent s) ∧
    ∀ (obs : Observers) (i : InstanceId) (code : Code) (next : Nat) (frame : Frame) (m : Machine)
      (a : MemoryAddr) (x : Memory), m.store.memoryOf? i = some a →
      m.store.memories[a]? = some x → pageSize ∣ x.size →
      MemoryGrowExact obs i code next frame m a x := by
  have hmemories : ∀ (s : Store) (a : MemoryAddr) (x : Memory), s.memories[a]? = some x →
      pageSize ∣ x.size → GrowsExactly (fun s => s.growMemory a)
        (fun x' => s.updateMemory a fun _ => x') x.GrownBy x.extent s :=
    fun s a x hx hpages => Memory.growing_lawful.growsExactly hx (Memory.grownBy_extend hpages)
  refine ⟨hmemories, fun s a t ht => ?_, fun obs i code next frame m a x ha hx hpages => ?_⟩
  · exact Table.growing_lawful.growsExactly ht fun delta => ⟨rfl, rfl, rfl⟩
  · obtain ⟨c, hc, hstep⟩ := step_memoryGrow obs i code next frame ha
    have hgrows := hmemories m.store a x hx hpages
    refine ⟨fun hadmits => ?_, fun hrefuses => ?_⟩
    · obtain ⟨x', hgrown, hgrow⟩ := hgrows.admitted _ hadmits
      rw [hgrow] at hc hstep
      exact ⟨x', c, hgrown, hc, hstep⟩
    · rw [hgrows.refused _ hrefuses] at hc hstep
      exact ⟨c, hc, hstep⟩

/-- One page below a ceiling of two: one more is admitted, the largest addend is not, and neither is
a third element in a table of two. -/
theorem capped_growth_exact :
    let x := Memory.create { min := 1, max := some 3 } 2
    let t := Table.create { min := 2, max := some 4 } 10
    let s : Store := { memories := #[x], tables := #[t], instances := #[{ memories := [0] }] }
    s.memories[0]? = some x ∧ pageSize ∣ x.size ∧ s.memoryOf? 0 = some 0 ∧ s.tables[0]? = some t ∧
      (∃ x', x.GrownBy 1 x' ∧ s.growMemory 0 1 = (some 1, s.updateMemory 0 fun _ => x')) ∧
      s.growTable 0 3 = (none, s) ∧
      (∃ c, c.Encodes .i32 (-1) ∧
        step {} 0 {} .memoryGrow 1 { slots := #[0, 0xffffffff], localCount := 0, top := 1 }
            { store := s } =
          .goto 1 (Frame.setTop { slots := #[0, 0xffffffff], localCount := 0, top := 1 } c)
            { store := s }) ∧
      ¬((s.growMemory 0 1).1.isSome ∧ ((s.growMemory 0 1).2.growMemory 0 1).1.isSome) := by
  intro x t s
  obtain ⟨hmemory, htable, hstep⟩ := growth_exact
  -- stated of any store, so that no page of the one at hand is ever computed
  have htwice : ∀ (s : Store) (x : Memory), s.memories[0]? = some x → pageSize ∣ x.size →
      ¬x.extent.Admits 2 →
        ¬((s.growMemory 0 1).1.isSome ∧ ((s.growMemory 0 1).2.growMemory 0 1).1.isSome) := by
    intro s x hx hdvd hrefuses hboth
    have hgrows := hmemory s 0 x hx hdvd
    have hsum : (s.growMemory 0 2).1.isSome := (hgrows.composes 1 1).mp hboth
    rw [hgrows.refused 2 hrefuses] at hsum
    exact Bool.false_ne_true hsum
  have hx : s.memories[0]? = some x := rfl
  have ht : s.tables[0]? = some t := rfl
  have hsize : x.size = 1 * pageSize := size_zeros _
  have hpages : x.pages = 1 := Memory.pages_create _ _
  have hdvd : pageSize ∣ x.size := hsize ▸ Nat.dvd_mul_left ..
  have hgrows := hmemory s 0 x hx hdvd
  have hextent : x.extent = ⟨1, { min := 1, max := some 3 }, 2⟩ := by
    rw [Memory.extent, hpages]
    rfl
  have hone : x.extent.Admits 1 := by
    rw [hextent]
    decide
  have hlargest : ¬x.extent.Admits 4294967295 := by
    rw [hextent]
    decide
  have htwo : ¬x.extent.Admits 2 := by
    rw [hextent]
    decide
  have hthree : ¬t.extent.Admits 3 := by decide
  obtain ⟨x', hx', hgrown⟩ := hgrows.admitted 1 hone
  rw [hextent] at hgrown
  refine ⟨hx, hdvd, rfl, ht, ⟨x', hx', hgrown⟩, (htable s 0 t ht).refused 3 hthree, ?_, ?_⟩
  · exact (hstep {} 0 {} 1 { slots := #[0, 0xffffffff], localCount := 0, top := 1 } { store := s }
      0 x rfl hx hdvd).refused hlargest
  · exact htwice s x hx hdvd htwo

end WasmEngine

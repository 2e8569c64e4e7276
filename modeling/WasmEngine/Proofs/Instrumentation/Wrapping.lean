import Mathlib.Data.List.Induction
import WasmEngine.Execution.Run
import WasmEngine.Instrumentation.Probe

/-!
# Wrapped bodies

What `InstrumentedCode.wrap` makes of a body, and what a frame finds in it. A wrapped body has a
probe exactly at its sites and the original instruction behind every probe, so a frame that runs it
meets the instructions of the body.
-/
namespace WasmEngine
set_option autoImplicit false

def Instruction.isProbe : Instruction → Bool
  | .probe _ => true
  | _ => false

/-- A body as it comes from a compiler: without probes. -/
def Code.ProbeFree (code : Code) : Prop := ∀ instr ∈ code.instructions, instr.isProbe = false

instance (code : Code) : Decidable code.ProbeFree :=
  inferInstanceAs (Decidable (∀ instr ∈ code.instructions, instr.isProbe = false))

/-- A module as it comes from a compiler: no body has probes. -/
def Module.ProbeFree (module : Module) : Prop := ∀ f ∈ module.functions, f.code.ProbeFree

/-- Sites lie inside a body, and no two of them at one place. -/
structure Code.Admits (code : Code) (sites : List ProbeSite) : Prop where
  inside : ∀ site ∈ sites, site.offset < code.size
  distinct : (sites.map (·.offset)).Nodup

def ProbeSite.probe (code : Code) (site : ProbeSite) : Probe :=
  ⟨site.offset, site.flags, site.block, code.instructions.getD site.offset .unreachable⟩

namespace InstrumentedCode

theorem wrap_concat (code : Code) (sites : List ProbeSite) (site : ProbeSite) :
    wrap code (sites ++ [site]) = (wrap code sites).addProbe site := by
  simp [wrap]

theorem admits_of_concat {code : Code} {sites : List ProbeSite} {site : ProbeSite}
    (h : code.Admits (sites ++ [site])) :
    code.Admits sites ∧ site.offset < code.size ∧ ∀ other ∈ sites, other.offset ≠ site.offset := by
  have hd := h.distinct
  rw [List.map_append, List.nodup_append] at hd
  refine ⟨⟨fun s hs => h.inside s (List.mem_append_left _ hs), hd.1⟩,
    h.inside site (by simp), fun other ho => hd.2.2 _ (List.mem_map_of_mem ho) _ (by simp)⟩

theorem wrap_size (code : Code) (sites : List ProbeSite) :
    (wrap code sites).instructions.size = code.size := by
  induction sites using List.reverseRecOn with
  | nil => rfl
  | append_singleton sites site ih =>
    rw [wrap_concat]
    exact (Array.size_setIfInBounds ..).trans ih

/-- Away from the sites the body is as it was. -/
theorem wrap_other (code : Code) {sites : List ProbeSite} {offset : Nat}
    (h : ∀ site ∈ sites, site.offset ≠ offset) :
    (wrap code sites).instructions[offset]? = code.instructions[offset]? := by
  induction sites using List.reverseRecOn with
  | nil => rfl
  | append_singleton sites site ih =>
    rw [wrap_concat]
    have hne : site.offset ≠ offset := h site (by simp)
    show ((wrap code sites).instructions.setIfInBounds site.offset _)[offset]? = _
    rw [Array.getElem?_setIfInBounds_ne hne]
    exact ih fun s hs => h s (List.mem_append_left _ hs)

/-- The probes, in site order, keep what the body had at their sites. -/
theorem wrap_probes {code : Code} {sites : List ProbeSite} (h : code.Admits sites) :
    (wrap code sites).probes = (sites.map (ProbeSite.probe code)).toArray := by
  induction sites using List.reverseRecOn with
  | nil => rfl
  | append_singleton sites site ih =>
    obtain ⟨hs, hin, hne⟩ := admits_of_concat h
    rw [wrap_concat, addProbe, ih hs, List.map_append, List.map_singleton, List.push_toArray]
    simp only [ProbeSite.probe, Array.getD_eq_getD_getElem?, wrap_other code hne]

/-- At the site with number `k` stands the probe with that number. -/
theorem wrap_at {code : Code} {sites : List ProbeSite} (h : code.Admits sites) {k : Nat}
    {site : ProbeSite} (hk : sites[k]? = some site) :
    (wrap code sites).instructions[site.offset]? = some (.probe k) := by
  induction sites using List.reverseRecOn with
  | nil => simp at hk
  | append_singleton sites last ih =>
    obtain ⟨hs, hin, hne⟩ := admits_of_concat h
    have hp : (wrap code sites).probes.size = sites.length := by rw [wrap_probes hs]; simp
    rw [wrap_concat]
    show ((wrap code sites).instructions.setIfInBounds last.offset
      (.probe (wrap code sites).probes.size))[site.offset]? = _
    by_cases hlt : k < sites.length
    · rw [List.getElem?_append_left hlt] at hk
      have hsite : last.offset ≠ site.offset := (hne site (List.mem_of_getElem? hk)).symm
      rw [Array.getElem?_setIfInBounds_ne hsite, ih hs hk]
    · have hkl : k = sites.length := by
        have hb := (List.getElem?_eq_some_iff.mp hk).1
        rw [List.length_append, List.length_singleton] at hb
        omega
      subst hkl
      rw [List.getElem?_concat_length, Option.some.injEq] at hk
      subst hk
      rw [Array.getElem?_setIfInBounds_self_of_lt (by rw [wrap_size]; exact hin), hp]

end InstrumentedCode

namespace ProbeSite

theorem at?_offset {coverage : Option CoverageMode} {trace : Bool} {g : Graph} {offset : Nat}
    {site : ProbeSite} (h : at? coverage trace g offset = some site) : site.offset = offset := by
  simp only [at?, Option.ite_none_left_eq_some, Option.some.injEq] at h
  rw [← h.2]

theorem select_admits (code : Code) (coverage : Option CoverageMode) (trace : Bool) (g : Graph) :
    code.Admits (select code coverage trace g) := by
  constructor
  · intro site hs
    obtain ⟨offset, ho, h⟩ := List.mem_filterMap.mp hs
    rw [at?_offset h]
    exact List.mem_range.mp ho
  · -- The offsets of the sites are some of those of the body, in the same order.
    have hsub : ((select code coverage trace g).map (·.offset)).Sublist (List.range code.size) := by
      have hmap : ∀ l : List Nat, ((l.filterMap (at? coverage trace g)).map (·.offset)).Sublist l := by
        intro l
        induction l with
        | nil => exact .slnil
        | cons offset rest ih =>
          cases h : at? coverage trace g offset with
          | none => rw [List.filterMap_cons_none h]; exact ih.cons _
          | some site =>
            rw [List.filterMap_cons_some h, List.map_cons, at?_offset h]
            exact ih.cons_cons _
      exact hmap _
    exact List.nodup_range.sublist hsub

/-- The site of a selection at an offset, if it has one. -/
theorem mem_select_iff {code : Code} {coverage : Option CoverageMode} {trace : Bool} {g : Graph}
    {site : ProbeSite} :
    site ∈ select code coverage trace g ↔
      site.offset < code.size ∧ at? coverage trace g site.offset = some site := by
  rw [select, List.mem_filterMap]
  constructor
  · rintro ⟨offset, ho, h⟩
    rw [at?_offset h]
    exact ⟨List.mem_range.mp ho, h⟩
  · rintro ⟨ho, h⟩
    exact ⟨site.offset, List.mem_range.mpr ho, h⟩

end ProbeSite

/-- A body runs as the code says: behind the probes stand the instructions of the code. -/
def Running.Faithful (r : Running) : Prop :=
  ∀ pc, r.instruction pc = r.code.instructions.getD pc .return_

theorem probe?_eq_none_of_get {r : Running} {pc : Nat} {instr : Instruction}
    (h : r.instructions[pc]? = some instr) (hi : instr.isProbe = false) : r.probe? pc = none := by
  unfold Running.probe?
  rw [h]
  cases instr <;> first | rfl | cases hi

theorem Code.ProbeFree.get {code : Code} (h : code.ProbeFree) {pc : Nat} {instr : Instruction}
    (hi : code.instructions[pc]? = some instr) : instr.isProbe = false :=
  h instr (Array.mem_of_getElem? hi)

section
variable (inst : InstanceId) (f : FunctionInstance) {code : Code}

theorem ofFunction_none_probe? (h : code.ProbeFree) (pc : Nat) :
    (Running.ofFunction inst f code none).probe? pc = none := by
  cases hi : code.instructions[pc]? with
  | none => unfold Running.probe?; rw [show (Running.ofFunction inst f code none).instructions[pc]? =
      code.instructions[pc]? from rfl, hi]
  | some instr => exact probe?_eq_none_of_get hi (h.get hi)

theorem ofFunction_none_faithful (h : code.ProbeFree) :
    (Running.ofFunction inst f code none).Faithful := by
  intro pc
  unfold Running.instruction
  rw [ofFunction_none_probe? inst f h]
  rfl

/-- The probes that a frame meets in a wrapped body are those of the sites. -/
theorem ofFunction_wrap_probe? {sites : List ProbeSite}
    (hs : code.Admits sites) {site : ProbeSite} (hsite : site ∈ sites) :
    (Running.ofFunction inst f code (some (.wrap code sites))).probe? site.offset =
      some (site.probe code) := by
  obtain ⟨k, hk⟩ := List.getElem?_of_mem hsite
  have hi : (Running.ofFunction inst f code (some (.wrap code sites))).instructions[site.offset]? =
      some (.probe k) := InstrumentedCode.wrap_at hs hk
  unfold Running.probe?
  rw [hi]
  show (InstrumentedCode.wrap code sites).probes[k]? = _
  rw [InstrumentedCode.wrap_probes hs, List.getElem?_toArray, List.getElem?_map, hk]
  rfl

theorem ofFunction_wrap_probe?_other (h : code.ProbeFree) {sites : List ProbeSite} {pc : Nat}
    (hpc : ∀ site ∈ sites, site.offset ≠ pc) :
    (Running.ofFunction inst f code (some (.wrap code sites))).probe? pc = none := by
  have hi : (Running.ofFunction inst f code (some (.wrap code sites))).instructions[pc]? =
      code.instructions[pc]? := InstrumentedCode.wrap_other code hpc
  cases ho : code.instructions[pc]? with
  | none => unfold Running.probe?; rw [hi, ho]
  | some instr => exact probe?_eq_none_of_get (hi.trans ho) (h.get ho)

/-- A frame that runs a wrapped body meets the instructions of the body. -/
theorem ofFunction_wrap_faithful (h : code.ProbeFree) {sites : List ProbeSite}
    (hs : code.Admits sites) :
    (Running.ofFunction inst f code (some (.wrap code sites))).Faithful := by
  intro pc
  unfold Running.instruction
  by_cases hpc : ∃ site ∈ sites, site.offset = pc
  · obtain ⟨site, hsite, rfl⟩ := hpc
    rw [ofFunction_wrap_probe? inst f hs hsite]
    -- The default for a site outside the body is never needed.
    have hin : site.offset < code.instructions.size := hs.inside site hsite
    simp only [ProbeSite.probe, Running.ofFunction, Array.getD_eq_getD_getElem?,
      Array.getElem?_eq_getElem hin, Option.getD_some]
  · have hne : ∀ site ∈ sites, site.offset ≠ pc := fun site hsite he => hpc ⟨site, hsite, he⟩
    rw [ofFunction_wrap_probe?_other inst f h hne]
    have hi := InstrumentedCode.wrap_other code hne
    simp only [Running.ofFunction, Option.map_some, Option.getD_some, Array.getD_eq_getD_getElem?, hi]

end

end WasmEngine

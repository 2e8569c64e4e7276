import WasmEngine.Proofs.Instrumentation.Installation

/-!
# Sites and the body behind them

A selection has its sites in the order of the body, at the offsets where something is reported, and
each asks for exactly the reports that apply there. Wrapping a body at any sites, in any order, loses
nothing: the number in a probe instruction is the place of its site in the list, and the instructions
that the probes keep give the body back.
-/
namespace WasmEngine
set_option autoImplicit false

/-- A block of the body begins at an offset. -/
def Code.Enters (code : Code) (offset : Nat) : Prop :=
  ∃ b ∈ (Graph.build code).blocks, b.start = offset

namespace Code

variable {code : Code}

theorem enters_iff {offset : Nat} : code.Enters offset ↔ offset ∈ code.blockStarts := by
  constructor
  · rintro ⟨b, hb, rfl⟩
    exact List.mem_of_getElem? (Graph.mem_blocks hb).1
  · intro h
    obtain ⟨b, hb, -, hstart, -⟩ := Graph.exists_block (blockOf_start h)
    exact ⟨b, hb, hstart⟩

/-- The blocks lie in the order of the body. -/
theorem map_start_blocks : (Graph.build code).blocks.map (·.start) = code.blockStarts := by
  apply List.ext_getElem?
  intro k
  rw [List.getElem?_map, Graph.getElem?_blocks, Option.map_map]
  exact Option.map_id'

end Code

namespace ProbeSite

/-- A site asks for exactly the reports that apply at its offset, and a report of a block names the
block that begins there. -/
structure Fits (code : Code) (coverage : Option CoverageMode) (trace : Bool) (site : ProbeSite) :
    Prop where
  offset : site.flags.has ProbeFlags.offset = true ↔ coverage = some .offsets
  blockEntry : site.flags.has ProbeFlags.blockEntry = true ↔
    coverage = some .edges ∧ code.Enters site.offset
  trace : site.flags.has ProbeFlags.trace = true ↔ trace = true
  /-- The flags have no bits but those of the three reports. -/
  only : site.flags ||| (ProbeFlags.offset ||| ProbeFlags.blockEntry ||| ProbeFlags.trace) =
    ProbeFlags.offset ||| ProbeFlags.blockEntry ||| ProbeFlags.trace
  block : site.flags.has ProbeFlags.blockEntry = true →
    ∃ b ∈ (Graph.build code).blocks, b.start = site.offset ∧ b.id = site.block

theorem flagsOf_only (offset blockEntry trace : Bool) :
    flagsOf offset blockEntry trace |||
        (ProbeFlags.offset ||| ProbeFlags.blockEntry ||| ProbeFlags.trace) =
      ProbeFlags.offset ||| ProbeFlags.blockEntry ||| ProbeFlags.trace := by
  cases offset <;> cases blockEntry <;> cases trace <;> decide

theorem flagsOf_eq_zero_iff (offset blockEntry trace : Bool) :
    flagsOf offset blockEntry trace = 0 ↔
      offset = false ∧ blockEntry = false ∧ trace = false := by
  constructor
  · exact (flagsOf_has offset blockEntry trace).2.2.2
  · rintro ⟨rfl, rfl, rfl⟩
    rfl

section
variable {code : Code} {coverage : Option CoverageMode} {trace : Bool}

theorem isSome_entered?_iff {offset : Nat} :
    (entered? coverage code offset).isSome = true ↔
      coverage = some .edges ∧ code.Enters offset := by
  rw [Code.enters_iff]
  unfold entered?
  split
  · next hedges =>
    rw [Code.entered?_eq]
    split
    · next hmem => simp [hedges, hmem]
    · next hmem => simp [hmem]
  · next hedges => simp [hedges]

/-- A site is selected where there is something to report. -/
theorem isSome_at?_iff {offset : Nat} :
    (at? coverage trace (Graph.build code) offset).isSome = true ↔
      coverage = some .offsets ∨ (coverage = some .edges ∧ code.Enters offset) ∨ trace = true := by
  rw [at?_eq]
  dsimp only
  split
  · next hzero =>
    obtain ⟨hoffset, hentry, rfl⟩ := (flagsOf_eq_zero_iff ..).mp hzero
    rw [← isSome_entered?_iff, hentry]
    simpa using hoffset
  · next hflags =>
    rw [flagsOf_eq_zero_iff] at hflags
    rw [← isSome_entered?_iff]
    simpa [not_and_or, or_iff_not_imp_left] using hflags

theorem fits_of_at? {offset : Nat} {site : ProbeSite}
    (h : at? coverage trace (Graph.build code) offset = some site) :
    site.Fits code coverage trace := by
  rw [at?_eq] at h
  obtain ⟨-, rfl⟩ := Option.ite_none_left_eq_some.mp h |>.imp_right Option.some.inj
  obtain ⟨hoffset, hentry, htrace, -⟩ := flagsOf_has (decide (coverage = some .offsets))
    (entered? coverage code offset).isSome trace
  refine ⟨?_, ?_, ?_, flagsOf_only .., fun hblock => ?_⟩
  · dsimp only
    rw [hoffset, decide_eq_true_eq]
  · dsimp only
    rw [hentry, isSome_entered?_iff]
  · dsimp only
    rw [htrace]
  · dsimp only at hblock ⊢
    rw [hentry] at hblock
    obtain ⟨hedges, henters⟩ := isSome_entered?_iff.mp hblock
    obtain ⟨b, hb, hid, hstart, -⟩ :=
      Graph.exists_block (Code.blockOf_start (Code.enters_iff.mp henters))
    refine ⟨b, hb, hstart, ?_⟩
    rw [hid, entered?, if_pos hedges, Code.entered?_eq, if_pos (Code.enters_iff.mp henters),
      Option.getD_some]

theorem map_offset_filterMap (g : Graph) (offsets : List Nat) :
    (offsets.filterMap (at? coverage trace g)).map (·.offset) =
      offsets.filter fun o => (at? coverage trace g o).isSome := by
  induction offsets with
  | nil => rfl
  | cons o rest ih =>
    cases h : at? coverage trace g o with
    | none => rw [List.filterMap_cons_none h, List.filter_cons_of_neg (by simp [h]), ih]
    | some site =>
      rw [List.filterMap_cons_some h, List.filter_cons_of_pos (by simp [h]), List.map_cons, ih,
        at?_offset h]

/-- The offsets of a selection, in order. -/
theorem map_offset_select (code : Code) (coverage : Option CoverageMode) (trace : Bool) :
    (select code coverage trace (Graph.build code)).map (·.offset) =
      (List.range code.size).filter fun o =>
        (at? coverage trace (Graph.build code) o).isSome :=
  map_offset_filterMap ..

/-- Sites lie one behind another. -/
theorem select_sorted (code : Code) (coverage : Option CoverageMode) (trace : Bool) :
    (select code coverage trace (Graph.build code)).Pairwise (·.offset < ·.offset) := by
  rw [← List.pairwise_map (f := ProbeSite.offset), map_offset_select]
  exact List.pairwise_lt_range.filter _

/-- Offsets and instructions are reported everywhere. -/
theorem map_offset_select_of_all (h : trace = true ∨ coverage = some .offsets) :
    (select code coverage trace (Graph.build code)).map (·.offset) = List.range code.size := by
  rw [map_offset_select, List.filter_eq_self]
  intro o _
  rw [isSome_at?_iff]
  obtain htrace | hoffsets := h
  · exact .inr (.inr htrace)
  · exact .inl hoffsets

/-- Edges alone are reported where a block begins. -/
theorem map_offset_select_edges (code : Code) :
    (select code (some .edges) false (Graph.build code)).map (·.offset) =
      (Graph.build code).blocks.map (·.start) := by
  rw [map_offset_select, Code.map_start_blocks, Code.blockStarts]
  refine List.filter_congr fun o ho => ?_
  have hiff : (at? (some .edges) false (Graph.build code) o).isSome = true ↔
      code.leaders.contains o = true := by
    rw [isSome_at?_iff, Code.enters_iff, Code.mem_blockStarts, List.contains_iff_mem]
    simp [List.mem_range.mp ho]
  exact Bool.eq_iff_iff.mpr hiff

/-- Without coverage and tracing there is nothing to report. -/
theorem select_none (code : Code) (g : Graph) : select code none false g = [] :=
  List.filterMap_eq_nil_iff.mpr fun o _ => by simp [at?]

end

end ProbeSite

/-- The site for which a probe was placed. -/
def Probe.site (p : Probe) : ProbeSite := ⟨p.offset, p.flags, p.block⟩

namespace InstrumentedCode

/-- What an instruction of a wrapped body stands for: a probe for the instruction it keeps. -/
def behind (body : InstrumentedCode) : Instruction → Instruction
  | .probe k => ((body.probes[k]?).map (·.replaced)).getD (.probe k)
  | instr => instr

/-- The body that is left when every probe gives way to the instruction it keeps. -/
def restored (body : InstrumentedCode) : Array Instruction := body.instructions.map body.behind

theorem behind_of_not_isProbe (body : InstrumentedCode) {instr : Instruction}
    (h : instr.isProbe = false) : body.behind instr = instr := by
  cases instr <;> first | rfl | cases h

theorem behind_wrap {code : Code} {sites : List ProbeSite} (h : code.Admits sites) {k : Nat}
    {site : ProbeSite} (hk : sites[k]? = some site) :
    (wrap code sites).behind (.probe k) = (site.probe code).replaced := by
  show (((wrap code sites).probes[k]?).map (·.replaced)).getD _ = _
  rw [wrap_probes h, List.getElem?_toArray, List.getElem?_map, hk]
  rfl

theorem restored_wrap {code : Code} (hfree : code.ProbeFree) {sites : List ProbeSite}
    (h : code.Admits sites) : (wrap code sites).restored = code.instructions := by
  apply Array.ext_getElem?
  intro o
  rw [restored, Array.getElem?_map]
  by_cases hsite : ∃ site ∈ sites, site.offset = o
  · obtain ⟨site, hmem, rfl⟩ := hsite
    obtain ⟨k, hk⟩ := List.getElem?_of_mem hmem
    have hin : site.offset < code.instructions.size := h.inside site hmem
    rw [wrap_at h hk, Option.map_some, behind_wrap h hk, Array.getElem?_eq_getElem hin]
    simp only [ProbeSite.probe, Array.getD_eq_getD_getElem?, Array.getElem?_eq_getElem hin,
      Option.getD_some]
  · have hother : ∀ site ∈ sites, site.offset ≠ o := fun site hmem he => hsite ⟨site, hmem, he⟩
    rw [wrap_other code hother]
    cases hi : code.instructions[o]? with
    | none => rfl
    | some instr => rw [Option.map_some, behind_of_not_isProbe _ (hfree.get hi)]

theorem map_site_probes {code : Code} {sites : List ProbeSite} (h : code.Admits sites) :
    (wrap code sites).probes.toList.map Probe.site = sites := by
  rw [wrap_probes h, List.toList_toArray, List.map_map]
  exact List.map_id' sites

end InstrumentedCode

/-- Selection and wrapping lose nothing. The sites of a selection lie one behind another inside the
body: one at every offset when instructions are traced or offsets are reported, one where each block
begins when only edges are, none when nothing is; and each fits its offset. Whatever sites with
different offsets a body is wrapped at, and in whatever order, the wrapped body is as long as the
body and has one probe for each site, in their order. At the offset of a site stands the probe
instruction with the number of the site; all other instructions are those of the body. With the
instruction that its probe keeps in the place of each probe instruction it is the body again. -/
theorem probes_lose_nothing (code : Code) (h : code.ProbeFree) :
    (∀ (coverage : Option CoverageMode) (trace : Bool),
      let sites := ProbeSite.select code coverage trace (Graph.build code)
      sites.Pairwise (·.offset < ·.offset) ∧
      (∀ site ∈ sites, site.offset < code.size ∧ site.Fits code coverage trace) ∧
      (trace = true ∨ coverage = some .offsets →
        sites.map (·.offset) = List.range code.size) ∧
      (trace = false → coverage = some .edges →
        sites.map (·.offset) = (Graph.build code).blocks.map (·.start)) ∧
      (trace = false → coverage = none → sites = [])) ∧
    ∀ sites : List ProbeSite, code.Admits sites →
      let body := InstrumentedCode.wrap code sites
      body.instructions.size = code.size ∧
      body.probes.toList.map Probe.site = sites ∧
      (∀ (k : Nat) (site : ProbeSite), sites[k]? = some site →
        body.instructions[site.offset]? = some (.probe k)) ∧
      (∀ o, (∀ site ∈ sites, site.offset ≠ o) →
        body.instructions[o]? = code.instructions[o]?) ∧
      body.restored = code.instructions := by
  refine ⟨fun coverage trace => ⟨?_, fun site hsite => ?_, ?_, ?_, ?_⟩, fun sites hs =>
    ⟨InstrumentedCode.wrap_size code sites, InstrumentedCode.map_site_probes hs,
      fun k site hk => InstrumentedCode.wrap_at hs hk,
      fun o ho => InstrumentedCode.wrap_other code ho, InstrumentedCode.restored_wrap h hs⟩⟩
  · exact ProbeSite.select_sorted code coverage trace
  · obtain ⟨hin, hat⟩ := ProbeSite.mem_select_iff.mp hsite
    exact ⟨hin, ProbeSite.fits_of_at? hat⟩
  · exact ProbeSite.map_offset_select_of_all
  · rintro rfl rfl
    exact ProbeSite.map_offset_select_edges code
  · rintro rfl rfl
    exact ProbeSite.select_none code _

/-- A body of three blocks, and two sites against the order of the body: the first site has the
probe with the number 0, which stands at the end. -/
theorem branching_body_restored :
    let code : Code :=
      { instructions := #[.const .i32 7, .brIf ⟨3, 0⟩ 0, .nop, .end_], maxHeight := 1 }
    let sites : List ProbeSite :=
      [⟨3, ProbeFlags.blockEntry, 2⟩, ⟨1, ProbeFlags.offset ||| ProbeFlags.trace, 0⟩]
    code.ProbeFree ∧ code.Admits sites ∧
      (ProbeSite.select code (some .edges) false (Graph.build code)).map (·.offset) = [0, 2, 3] ∧
      (InstrumentedCode.wrap code sites).instructions[3]? = some (.probe 0) ∧
      (InstrumentedCode.wrap code sites).instructions[2]? = some .nop ∧
      (InstrumentedCode.wrap code sites).restored = code.instructions := by
  intro code sites
  have hfree : code.ProbeFree := by decide
  have hadmits : code.Admits sites := ⟨by decide, by decide⟩
  obtain ⟨hselect, hwrap⟩ := probes_lose_nothing code hfree
  obtain ⟨-, -, -, hedges, -⟩ := hselect (some .edges) false
  obtain ⟨-, -, hat, hother, hrestored⟩ := hwrap sites hadmits
  exact ⟨hfree, hadmits, (hedges rfl rfl).trans (by decide), hat 0 _ rfl,
    hother 2 (by decide), hrestored⟩

end WasmEngine

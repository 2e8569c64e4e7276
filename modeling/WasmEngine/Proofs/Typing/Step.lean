import WasmEngine.Proofs.Execution.Observation
import WasmEngine.Proofs.Typing.Store

/-!
# One instruction of a typed body

An instruction of a typed body finds the operands it needs and leaves those that its rule says: the
frame goes on at an offset with the types assigned there, or it calls a function with arguments of
its types, or it leaves with the declared result on top, or it traps for a reason.
-/
namespace WasmEngine
set_option autoImplicit false

/-- The frame has the types that the assignment gives to the offset. -/
def Frame.TypedAt (f : Frame) (Γ : Scope) (code : Code) (τ : Assignment) (pc : Nat) : Prop :=
  ∃ types, τ pc = some types ∧ f.HasTypes code.maxHeight Γ.locals types

/-- An outcome that agrees with an assignment, for an instruction before `next` that began in the
store `s`. -/
inductive Outcome.Conforms (serves : Nat → FuncType → Prop) (Γ : Scope) (code : Code)
    (τ : Assignment) (next : Nat) (s : Store) : Outcome → Prop
  | goto {pc : Nat} {f : Frame} {m : Machine} (hs : s.Evolves serves m.store)
      (h : f.TypedAt Γ code τ pc) : Conforms serves Γ code τ next s (.goto pc f m)
  | leave {f : Frame} {m : Machine} {types : List ValType} (hs : s.Evolves serves m.store)
      (h : f.HasTypes code.maxHeight Γ.locals types) (ho : Γ.outputs <+: types) :
      Conforms serves Γ code τ next s (.leave f m)
  | trap {kind : TrapKind} {m : Machine} (hs : s.Evolves serves m.store) (hk : kind ≠ .none) :
      Conforms serves Γ code τ next s (.trap kind m)
  | call {target : FunctionRef} {type : FuncType} {f : Frame} {m : Machine} {rest : List ValType}
      (hs : s.Evolves serves m.store) (ht : m.store.functionType? target = some type)
      (h : f.HasTypes code.maxHeight Γ.locals (type.inputs.reverse ++ rest))
      (hn : τ next = some (type.outputs.reverse ++ rest)) :
      Conforms serves Γ code τ next s (.call target type f m)

theorem mayLeave_typed {Γ : Scope} {types : List ValType} {l : Continuations}
    (h : Γ.mayLeave types = some l) : Γ.outputs <+: types := by
  unfold Scope.mayLeave at h
  split at h
  · rename_i hp
    exact List.isPrefixOf_iff_prefix.mp hp
  · cases h

/-- The target that a selector chooses is one of the table. -/
theorem selectTarget_mem {targets : List BranchTarget} {selector : Nat} {target : BranchTarget}
    (h : selectTarget targets selector = some target) : target ∈ targets := by
  unfold selectTarget at h
  split at h
  · exact List.mem_of_getElem? h
  · exact List.mem_of_getLast? h

section
variable {serves : Nat → FuncType → Prop} {Γ : Scope} {code : Code} {τ : Assignment}
  {types : List ValType} {next : Nat} {i : InstanceId} {f : Frame} {m : Machine} {l : Continuations}

/-- A frame that goes on with one operand more finds room for it. -/
theorem push_typedAt (ht : code.Typed Γ τ) {t : ValType} {c : Cell}
    (hf : f.HasTypes code.maxHeight Γ.locals types) (hn : τ next = some (t :: types))
    (hc : c.wellFormed t = true) : (f.push c).TypedAt Γ code τ next :=
  ⟨_, hn, hf.push (ht.height next _ hn) hc⟩

theorem branch_conforms (hs : m.store.Sound serves) {target : BranchTarget} {arity : Nat}
    {e : Nat × List ValType} (hb : branchTo types arity target = some e) (he : τ e.1 = some e.2)
    (hf : f.HasTypes code.maxHeight Γ.locals types) :
    (Outcome.branch target arity f m).Conforms serves Γ code τ next m.store := by
  obtain ⟨rest, hrest, hu, -⟩ := branchTo_typed hb he hf
  unfold Outcome.branch
  split
  · exact .trap (.refl hs) (by decide)
  · exact .goto (.refl hs) ⟨rest, hrest, hu⟩

theorem ofNumeric_conforms (hs : m.store.Sound serves) {t u : ValType} {rest : List ValType}
    {result : Except TrapKind Cell} (hn : τ next = some (t :: rest))
    (hf : f.HasTypes code.maxHeight Γ.locals (u :: rest))
    (hok : ∀ c, result = .ok c → c.wellFormed t = true)
    (herror : ∀ kind, result = .error kind → kind ∈ TrapKind.numeric) :
    (Outcome.ofNumeric next f m result).Conforms serves Γ code τ next m.store := by
  cases result with
  | ok c => exact .goto (.refl hs) ⟨_, hn, hf.setTop (hok c rfl)⟩
  | error kind =>
    refine .trap (.refl hs) ?_
    rintro rfl
    exact absurd (herror _ rfl) (by decide)

theorem stepLoad_conforms (obs : Observers) (hs : m.store.Sound serves) {op : LoadOp}
    (offset : Nat) {rest : List ValType} (hn : τ next = some (op.resultType :: rest))
    (hf : f.HasTypes code.maxHeight Γ.locals (.i32 :: rest)) :
    (stepLoad obs i op offset next f m).Conforms serves Γ code τ next m.store := by
  have hr : m.store.Evolves serves
      (m.reportAccess obs i .read (f.peek.index + offset) op.width).store := by
    rw [reportAccess_store]
    exact .refl hs
  unfold stepLoad
  dsimp only
  split
  · split
    · exact .goto hr ⟨_, hn, hf.setTop (op.decode_wellFormed _ _)⟩
    · exact .trap hr (by decide)
  · exact .trap hr (by decide)

theorem stepStore_conforms (obs : Observers) (hs : m.store.Sound serves) {op : StoreOp}
    (offset : Nat) {rest : List ValType} (hn : τ next = some rest)
    (hf : f.HasTypes code.maxHeight Γ.locals ([op.operandType, .i32] ++ rest)) :
    (stepStore obs i op offset next f m).Conforms serves Γ code τ next m.store := by
  have hr : m.store.Evolves serves
      (m.reportAccess obs i .write ((f.operand 1).index + offset) op.width).store := by
    rw [reportAccess_store]
    exact .refl hs
  unfold stepStore
  dsimp only
  split
  · split
    · refine .goto ?_ ⟨_, hn, hf.drop⟩
      exact hr.trans (hr.sound.updateMemory _ _)
    · exact .trap hr (by decide)
  · exact .trap hr (by decide)

/-- An indirect call only goes to functions of the expected type. -/
theorem stepCallIndirect_conforms (hs : m.store.Sound serves) (ho : Γ.toOutline = m.store.outline i)
    {k : Nat} {type : FuncType} (hk : Γ.types k = some type) {rest : List ValType}
    (hn : τ next = some (type.outputs.reverse ++ rest))
    (hf : f.HasTypes code.maxHeight Γ.locals (.i32 :: (type.inputs.reverse ++ rest))) :
    (stepCallIndirect i k f m).Conforms serves Γ code τ next m.store := by
  have he : (m.store.instances[i]?).bind (·.module.types[k]?) = some type := by
    rw [ho] at hk
    exact hk
  unfold stepCallIndirect
  dsimp only
  rw [he]
  split
  · exact .trap (.refl hs) (by decide)
  · exact .trap (.refl hs) (by decide)
  · rename_i element _
    split
    · rename_i ha
      rw [← ha]
      exact .call (.refl hs) ha.symm hf.pop hn
    · exact .trap (.refl hs) (by decide)

/-- The value of a global of a scope is well-formed for its type. -/
theorem global_wellFormed (hs : m.store.Sound serves) (ho : Γ.toOutline = m.store.outline i)
    {k : Nat} {t : ValType} (hk : Γ.globals k = some t) :
    ∃ a g, m.store.globalOf? i k = some a ∧ m.store.globals[a]? = some g ∧ g.type.valType = t ∧
      g.value.wellFormed t = true := by
  rw [ho] at hk
  obtain ⟨g, hg, rfl⟩ := Option.map_eq_some_iff.mp hk
  obtain ⟨a, ha, hag⟩ := Option.bind_eq_some_iff.mp hg
  exact ⟨a, g, ha, hag, rfl, hs.globals g (Array.mem_of_getElem? hag)⟩

/-- The outcome of an instruction of a typed body agrees with the assignment. -/
theorem step_conforms (obs : Observers) (hs : m.store.Sound serves)
    (ho : Γ.toOutline = m.store.outline i) (ht : code.Typed Γ τ) {instr : Instruction}
    (hf : f.HasTypes code.maxHeight Γ.locals types)
    (hc : continuations Γ code next types instr = some l) (hl : ∀ e ∈ l, τ e.1 = some e.2) :
    (step obs i code instr next f m).Conforms serves Γ code τ next m.store := by
  have hm := Store.Evolves.refl hs
  cases instr with
  | unreachable => exact .trap hm (by decide)
  | nop | block | loop =>
    obtain ⟨rest, rfl, hn⟩ := proceed_typed hc hl
    exact .goto hm ⟨_, hn, hf⟩
  | if_ otherwise =>
    obtain ⟨rest, hr, rfl⟩ := Option.map_eq_some_iff.mp hc
    obtain rfl := consume_eq_some hr
    unfold step
    dsimp only
    split
    · exact .goto hm ⟨rest, hl (next, rest) (by simp), hf.pop⟩
    · exact .goto hm ⟨rest, hl (otherwise, rest) (by simp), hf.pop⟩
  | else_ resume =>
    obtain ⟨rest, rfl, hn⟩ := proceed_typed hc hl
    exact .goto hm ⟨_, hn, hf⟩
  | end_ =>
    simp only [continuations] at hc
    unfold step
    dsimp only
    split
    · rename_i hend
      rw [if_pos hend] at hc
      exact .leave hm hf (mayLeave_typed hc)
    · rename_i hend
      rw [if_neg hend] at hc
      obtain ⟨rest, rfl, hn⟩ := proceed_typed hc hl
      exact .goto hm ⟨_, hn, hf⟩
  | br target arity =>
    obtain ⟨e, he, rfl⟩ := Option.map_eq_some_iff.mp hc
    exact branch_conforms hs he (hl e (by simp)) hf
  | brIf target arity =>
    obtain ⟨rest, hr, hc⟩ := Option.bind_eq_some_iff.mp hc
    obtain rfl := consume_eq_some hr
    obtain ⟨e, he, rfl⟩ := Option.map_eq_some_iff.mp hc
    unfold step
    dsimp only
    split
    · exact branch_conforms hs he (hl e (by simp)) hf.pop
    · exact .goto hm ⟨rest, hl (next, rest) (by simp), hf.pop⟩
  | brTable table arity =>
    simp only [continuations, Option.ite_none_left_eq_some] at hc
    obtain ⟨hne, hc⟩ := hc
    obtain ⟨rest, hr, hc⟩ := Option.bind_eq_some_iff.mp hc
    obtain rfl := consume_eq_some hr
    unfold step
    dsimp only
    split
    · rename_i target htarget
      obtain ⟨e, he, hτ⟩ := mapM_branchTo_typed hc hl (selectTarget_mem htarget)
      exact branch_conforms hs he hτ hf.pop
    · -- The table is not empty, so the default is there for every other selector.
      rename_i hnone
      unfold selectTarget at hnone
      split at hnone
      · rw [List.getElem?_eq_none_iff] at hnone
        omega
      · exact absurd (List.getLast?_eq_none_iff.mp hnone) hne
  | return_ => exact .leave hm hf (mayLeave_typed hc)
  | call func =>
    obtain ⟨type, hfunc, hc⟩ := Option.bind_eq_some_iff.mp hc
    obtain ⟨rest, rfl, hn⟩ := proceed_typed hc hl
    have htype : m.store.functionType? ⟨i, func⟩ = some type := by
      rw [ho] at hfunc
      exact hfunc
    unfold step
    dsimp only
    rw [show (m.store.function? ⟨i, func⟩).map (·.type) = some type from htype]
    exact .call hm htype hf hn
  | callIndirect k =>
    simp only [continuations, Option.ite_none_right_eq_some] at hc
    obtain ⟨type, hk, hc⟩ := Option.bind_eq_some_iff.mp hc.2
    obtain ⟨rest, rfl, hn⟩ := proceed_typed hc hl
    exact stepCallIndirect_conforms hs ho hk hn hf
  | drop =>
    obtain ⟨t, -, hc⟩ := Option.bind_eq_some_iff.mp hc
    obtain ⟨rest, rfl, hn⟩ := proceed_typed hc hl
    exact .goto hm ⟨rest, hn, hf.pop⟩
  | select =>
    obtain ⟨t, -, hc⟩ := Option.bind_eq_some_iff.mp hc
    obtain ⟨rest, rfl, hn⟩ := proceed_typed hc hl
    have hd : (f.drop 2).HasTypes code.maxHeight Γ.locals (t :: rest) := by
      have h2 : f.HasTypes code.maxHeight Γ.locals ([.i32, t] ++ (t :: rest)) := hf
      exact h2.drop
    have hsecond : (f.operand 1).wellFormed t = true := hf.operand rfl
    unfold step
    dsimp only
    split
    · exact .goto hm ⟨_, hn, hd⟩
    · exact .goto hm ⟨_, hn, hd.setTop hsecond⟩
  | localGet index =>
    obtain ⟨t, hi, hc⟩ := Option.bind_eq_some_iff.mp hc
    obtain ⟨rest, rfl, hn⟩ := proceed_typed hc hl
    exact .goto hm (push_typedAt ht hf hn (hf.localAt hi))
  | localSet index =>
    obtain ⟨t, hi, hc⟩ := Option.bind_eq_some_iff.mp hc
    obtain ⟨rest, rfl, hn⟩ := proceed_typed hc hl
    exact .goto hm ⟨_, hn, hf.pop.setLocal hi hf.peek⟩
  | localTee index =>
    obtain ⟨t, hi, hc⟩ := Option.bind_eq_some_iff.mp hc
    obtain ⟨rest, rfl, hn⟩ := proceed_typed hc hl
    exact .goto hm ⟨_, hn, hf.setLocal hi hf.peek⟩
  | globalGet index =>
    obtain ⟨t, hi, hc⟩ := Option.bind_eq_some_iff.mp hc
    obtain ⟨rest, rfl, hn⟩ := proceed_typed hc hl
    obtain ⟨a, g, ha, hg, -, hw⟩ := global_wellFormed hs ho hi
    unfold step
    dsimp only
    rw [ha, Option.bind_some, hg]
    exact .goto hm (push_typedAt ht hf hn hw)
  | globalSet index =>
    obtain ⟨t, hi, hc⟩ := Option.bind_eq_some_iff.mp hc
    obtain ⟨rest, rfl, hn⟩ := proceed_typed hc hl
    obtain ⟨a, g, ha, hg, rfl, -⟩ := global_wellFormed hs ho hi
    have hv : ∀ g', m.store.globals[a]? = some g' → f.peek.wellFormed g'.type.valType = true := by
      intro g' hg'
      rw [hg, Option.some.injEq] at hg'
      exact hg' ▸ hf.peek
    unfold step
    dsimp only
    rw [ha]
    exact .goto (hs.setGlobal a f.peek hv) ⟨_, hn, hf.pop⟩
  | load op offset =>
    simp only [continuations, Option.ite_none_right_eq_some] at hc
    obtain ⟨rest, rfl, hn⟩ := proceed_typed hc.2 hl
    exact stepLoad_conforms obs hs offset hn hf
  | store op offset =>
    simp only [continuations, Option.ite_none_right_eq_some] at hc
    obtain ⟨rest, rfl, hn⟩ := proceed_typed hc.2 hl
    exact stepStore_conforms obs hs offset hn hf
  | memorySize =>
    simp only [continuations, Option.ite_none_right_eq_some] at hc
    obtain ⟨rest, rfl, hn⟩ := proceed_typed hc.2 hl
    exact .goto hm (push_typedAt ht hf hn (Cell.ofLow_wellFormed _ _))
  | memoryGrow =>
    simp only [continuations, Option.ite_none_right_eq_some] at hc
    obtain ⟨rest, rfl, hn⟩ := proceed_typed hc.2 hl
    unfold step
    dsimp only
    split
    · exact .goto (hs.growMemory _ _) ⟨_, hn, hf.setTop (Cell.ofLow_wellFormed _ _)⟩
    · exact .goto hm ⟨_, hn, hf.setTop (Cell.ofLow_wellFormed _ _)⟩
  | const t value =>
    simp only [continuations, Option.ite_none_right_eq_some] at hc
    obtain ⟨rest, rfl, hn⟩ := proceed_typed hc.2 hl
    exact .goto hm (push_typedAt ht hf hn hc.1)
  | unary op =>
    obtain ⟨rest, rfl, hn⟩ := proceed_typed hc hl
    exact ofNumeric_conforms hs hn hf (fun _ => op.eval_wellFormed) fun _ => op.eval_error_numeric
  | binary op =>
    obtain ⟨rest, rfl, hn⟩ := proceed_typed hc hl
    exact ofNumeric_conforms hs hn hf.pop (fun _ => op.eval_wellFormed)
      fun _ => op.eval_error_numeric
  | probe index => cases hc

end

end WasmEngine

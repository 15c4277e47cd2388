import Carat.GuardInsertion

/-!
# The order of the hash maps

The pass keeps its guards in `std::unordered_map`s, which promise no order, and a new
instruction is numbered when it is made.  So the numbers depend on the order in which
the maps are traversed; nothing else of the output does.
-/

namespace Carat

open Weaving

/-! ## Renumbering -/

section Renumber

variable (number : InstId → InstId)

def Value.renumber : Value → Value
  | .inst id ty => .inst (number id) ty
  | v => v

def Callee.renumber : Callee → Callee
  | .function name => .function name
  | .value v => .value (v.renumber number)

def Op.renumber : Op → Op
  | .alloca allocated count => .alloca allocated (count.renumber number)
  | .load ptr => .load (ptr.renumber number)
  | .store val ptr => .store (val.renumber number) (ptr.renumber number)
  | .getelementptr ptr indices =>
      .getelementptr (ptr.renumber number) (indices.map (Value.renumber number))
  | .bitcast src => .bitcast (src.renumber number)
  | .call callee args => .call (callee.renumber number) (args.map (Value.renumber number))
  | .atomicrmw opcode ptr val =>
      .atomicrmw opcode (ptr.renumber number) (val.renumber number)
  | .cmpxchg ptr cmp new =>
      .cmpxchg (ptr.renumber number) (cmp.renumber number) (new.renumber number)
  | .phi incoming => .phi (incoming.map fun edge => (edge.1, edge.2.renumber number))
  | .other opcode operands => .other opcode (operands.map (Value.renumber number))
  | .branch opcode operands succs =>
      .branch opcode (operands.map (Value.renumber number)) succs
  | .invoke callee args normal unwind =>
      .invoke (callee.renumber number) (args.map (Value.renumber number)) normal unwind
  | .ret val => .ret (val.map (Value.renumber number))
  | .resume val => .resume (val.renumber number)
  | .unreachable => .unreachable

def Inst.renumber (I : Inst) : Inst := ⟨number I.id, I.ty, I.op.renumber number⟩

def Function.renumber (F : Function) : Function := F.mapInsts (List.map (Inst.renumber number))

end Renumber

/-- Two modules that differ in the numbers of their instructions.  What `source`
mentions keeps its number, and no two instructions get the same one. -/
def Renumbered (source M M' : Module) : Prop :=
  ∃ number : InstId → InstId, (∀ id < source.freshId, number id = id) ∧
    (∀ I ∈ M.insts, ∀ J ∈ M.insts, number I.id = number J.id → I = J) ∧
    M'.functions = M.functions.map (Function.renumber number)

section Fixed

variable {number : InstId → InstId}

theorem Value.renumber_eq_self {v : Value} (hfixed : ∀ id, v.id? = some id → number id = id) :
    v.renumber number = v := by
  cases v with
  | inst id ty => simp [Value.renumber, hfixed id rfl]
  | arg _ _ | const _ => rfl

theorem map_renumber_eq_self {values : List Value}
    (hfixed : ∀ v ∈ values, v.renumber number = v) :
    values.map (Value.renumber number) = values :=
  (List.map_congr_left hfixed).trans values.map_id

theorem Callee.renumber_eq_self {callee : Callee}
    (hfixed : ∀ v ∈ callee.values, v.renumber number = v) : callee.renumber number = callee := by
  cases callee with
  | function name => rfl
  | value v => simp [Callee.renumber, hfixed v (by simp [Callee.values])]

theorem Op.renumber_eq_self {op : Op} (hfixed : ∀ v ∈ op.values, v.renumber number = v) :
    op.renumber number = op := by
  cases op with
  | alloca _ _ | load _ | store _ _ | bitcast _ | atomicrmw _ _ _ | cmpxchg _ _ _ | resume _ =>
      simp_all [Op.renumber, Op.values]
  | getelementptr ptr indices =>
      obtain ⟨hptr, hindices⟩ := List.forall_mem_cons.mp hfixed
      rw [Op.renumber, hptr, map_renumber_eq_self hindices]
  | call callee args =>
      obtain ⟨hcallee, hargs⟩ := List.forall_mem_append.mp hfixed
      rw [Op.renumber, Callee.renumber_eq_self hcallee, map_renumber_eq_self hargs]
  | invoke callee args normal unwind =>
      obtain ⟨hcallee, hargs⟩ := List.forall_mem_append.mp hfixed
      rw [Op.renumber, Callee.renumber_eq_self hcallee, map_renumber_eq_self hargs]
  | phi incoming =>
      have hedges : ∀ edge ∈ incoming, (edge.1, edge.2.renumber number) = edge :=
        fun edge hedge => by rw [hfixed edge.2 (List.mem_map_of_mem hedge)]
      rw [Op.renumber, List.map_congr_left hedges, List.map_id']
  | other opcode operands => exact congrArg _ (map_renumber_eq_self hfixed)
  | branch opcode operands succs =>
      have hoperands : operands.map (Value.renumber number) = operands :=
        map_renumber_eq_self hfixed
      rw [Op.renumber, hoperands]
  | ret val => cases val <;> simp_all [Op.renumber, Op.values]
  | unreachable => rfl

theorem Inst.renumber_eq_self {I : Inst} (hfixed : ∀ id ∈ I.mentions, number id = id) :
    I.renumber number = I := by
  obtain ⟨hid, hvalues⟩ := List.forall_mem_cons.mp hfixed
  rw [Inst.renumber, hid, Op.renumber_eq_self fun v hv => Value.renumber_eq_self fun id hsome =>
    hvalues id (List.mem_filterMap.mpr ⟨v, hv, hsome⟩)]

end Fixed

/-! ## Numbers that fit -/

theorem exists_number (pairs : List (InstId × InstId)) (hkeys : (pairs.map Prod.fst).Nodup) :
    ∃ number : InstId → InstId, (∀ pair ∈ pairs, number pair.1 = pair.2) ∧
      ∀ id, id ∉ pairs.map Prod.fst → number id = id := by
  induction pairs with
  | nil => exact ⟨id, by simp, fun _ _ => rfl⟩
  | cons pair rest ih =>
      obtain ⟨hkey, hkeys'⟩ := List.nodup_cons.mp hkeys
      obtain ⟨number, hpairs, hothers⟩ := ih hkeys'
      refine ⟨Function.update number pair.1 pair.2, ?_, ?_⟩
      · rw [List.forall_mem_cons, Function.update_self]
        refine ⟨rfl, fun other hother => ?_⟩
        have hne : other.1 ≠ pair.1 := fun heq => hkey (heq ▸ List.mem_map_of_mem hother)
        rw [Function.update_of_ne hne, hpairs other hother]
      · intro id hid
        obtain ⟨hne, hrest⟩ : id ≠ pair.1 ∧ id ∉ rest.map Prod.fst := by simpa using hid
        rw [Function.update_of_ne hne, hothers id hrest]

theorem guardInsts_renumber {number : InstId → InstId} {guard : Guard}
    (hpointer : guard.pointer.renumber number = guard.pointer) {cast call cast' call' : InstId}
    (hpairs : ∀ pair ∈ ((guardInsts guard cast call).map Inst.id).zip
      ((guardInsts guard cast' call').map Inst.id), number pair.1 = pair.2) :
    (guardInsts guard cast call).map (Inst.renumber number) = guardInsts guard cast' call' := by
  obtain ⟨_, pointer, flags⟩ := guard
  unfold guardInsts at hpairs ⊢
  by_cases hty : pointer.ty = voidPtrType
  · simp_all [Inst.renumber, Op.renumber, guardCall, Callee.renumber, Value.renumber]
  · simp only [hty] at hpairs ⊢
    cases pointer <;>
      simp_all [Inst.renumber, Op.renumber, guardCall, Callee.renumber, Value.renumber]

/-- The numbers in front of the instructions, side by side. -/
def numbersBefore (before before' : InstId → List Inst) (insts : List Inst) :
    List (InstId × InstId) :=
  insts.flatMap fun I => ((before I.id).map Inst.id).zip ((before' I.id).map Inst.id)

theorem numbersBefore_sublist (before before' : InstId → List Inst) (insts : List Inst) :
    ((numbersBefore before before' insts).map Prod.fst).Sublist
      ((weave (fun I => before I.id) insts).map Inst.id) := by
  induction insts with
  | nil => exact .slnil
  | cons I rest ih =>
      have hfront : ((((before I.id).map Inst.id).zip ((before' I.id).map Inst.id)).map
          Prod.fst).Sublist ((before I.id).map Inst.id) := by
        rw [List.zip_eq_zip_take_min, List.map_fst_zip (by simp)]
        exact List.take_sublist ..
      rw [numbersBefore, List.flatMap_cons, List.map_append, weave_cons, List.map_append,
        List.map_cons]
      exact hfront.append (ih.cons _)

section Woven

variable {M₀ M' M'' : Module} {before before' : InstId → List Inst}

theorem WovenInto.renumbered (hwoven : WovenInto M₀ M' before) (hwoven' : WovenInto M₀ M'' before')
    (hfront : ∀ number : InstId → InstId, (∀ id < M₀.freshId, number id = id) → ∀ I ∈ M₀.insts,
      (∀ pair ∈ ((before I.id).map Inst.id).zip ((before' I.id).map Inst.id),
        number pair.1 = pair.2) →
      (before I.id).map (Inst.renumber number) = before' I.id) :
    Renumbered M₀ M' M'' := by
  obtain ⟨number, hpairs, hothers⟩ :=
    exists_number (numbersBefore before before' M₀.insts) <| by
      have hdistinct := M'.distinct
      rw [← Module.insts, hwoven.insts] at hdistinct
      exact hdistinct.sublist (numbersBefore_sublist ..)
  have hfixed : ∀ id < M₀.freshId, number id = id := by
    intro id hid
    refine hothers id fun hmem => ?_
    obtain ⟨pair, hpair, rfl⟩ := List.mem_map.mp hmem
    obtain ⟨I, _, hzip⟩ := List.mem_flatMap.mp hpair
    obtain ⟨J, hJ, hJid⟩ := List.mem_map.mp (List.of_mem_zip hzip).1
    exact absurd hid (not_lt.mpr (hJid ▸ hwoven.fresh I.id J hJ))
  have hold : ∀ I ∈ M₀.insts, I.renumber number = I := fun I hI =>
    Inst.renumber_eq_self fun id hid => hfixed id (M₀.mentions_lt_freshId hI hid)
  have hnew : ∀ I ∈ M₀.insts, (before I.id).map (Inst.renumber number) = before' I.id :=
    fun I hI => hfront number hfixed I hI fun pair hpair =>
      hpairs pair (List.mem_flatMap.mpr ⟨I, hI, hpair⟩)
  have hfunctions : M''.functions = M'.functions.map (Function.renumber number) := by
    rw [hwoven'.functions, hwoven.functions, List.map_map]
    refine List.map_congr_left fun F hF => ?_
    obtain ⟨name, blocks⟩ := F
    simp only [Function.comp_apply, Function.renumber, Function.weaveInsts, Function.mapInsts,
      List.map_map, Function.mk.injEq, true_and]
    refine List.map_congr_left fun B hB => ?_
    have hmem : ∀ I ∈ B.insts, I ∈ M₀.insts := fun I hI =>
      List.mem_flatMap.mpr ⟨_, hF, List.mem_flatMap.mpr ⟨B, hB, hI⟩⟩
    simp only [Function.comp_apply, Block.mk.injEq, true_and]
    exact (map_weave (fun I hI => hold I (hmem I hI)) fun I hI => hnew I (hmem I hI)).symm
  refine ⟨number, hfixed, ?_, hfunctions⟩
  have hinsts : M''.insts = M'.insts.map (Inst.renumber number) := by
    rw [hwoven'.insts, hwoven.insts, map_weave hold hnew]
  have hdistinct := M''.distinct
  rw [← Module.insts, hinsts, List.map_map] at hdistinct
  exact List.inj_on_of_nodup_map hdistinct

end Woven

/-- **The traversal orders only choose numbers.**  When the pass gets through in one
pair of orders it gets through in every pair, and the outputs are the same up to the
numbers of the inserted instructions. -/
theorem runOnModule_renumbered {toGuardOrder allGuardsOrder : IterationOrder} {fuel : ℕ}
    {M M' : Module} (hpass : runOnModule toGuardOrder allGuardsOrder fuel M = some M')
    (toGuardOrder' allGuardsOrder' : IterationOrder) :
    (∃ bound, ∀ fuel', bound ≤ fuel' →
      ∃ M'', runOnModule toGuardOrder' allGuardsOrder' fuel' M = some M'') ∧
    ∀ fuel' M'', runOnModule toGuardOrder' allGuardsOrder' fuel' M = some M'' →
      Renumbered M M' M'' := by
  refine ⟨runOnModule_total _ _ (walksEnd_of_runOnModule hpass), fun fuel' M'' hpass' => ?_⟩
  obtain ⟨before, hwoven, hguarded, hunguarded⟩ := runOnModule_woven hpass
  obtain ⟨before', hwoven', hguarded', hunguarded'⟩ := runOnModule_woven hpass'
  have hsame : (M.getOrInsertFunction "texas_guard").freshId = M.freshId := by simp
  rw [Renumbered, ← hsame]
  refine hwoven.renumbered hwoven' fun number hfixed I hI hpairs => ?_
  rw [Module.insts_getOrInsertFunction] at hI
  by_cases hneeds : ∃ guard, NeedsGuard M I guard
  · obtain ⟨guard, hneeds⟩ := hneeds
    obtain ⟨cast, call, _, _, hfront⟩ := hguarded I hI guard hneeds
    obtain ⟨cast', call', _, _, hfront'⟩ := hguarded' I hI guard hneeds
    rw [hfront, hfront'] at hpairs ⊢
    refine guardInsts_renumber (Value.renumber_eq_self fun id hid => ?_) hpairs
    obtain ⟨ptr, flags, haccess, _, rfl⟩ := hneeds
    have hmentions : id ∈ I.mentions := List.mem_cons_of_mem _
      (List.mem_filterMap.mpr ⟨ptr, (Op.access_mem_values haccess).1, hid⟩)
    exact hfixed id (hsame ▸ M.mentions_lt_freshId hI hmentions)
  · rw [hunguarded I hI (not_exists.mp hneeds), hunguarded' I hI (not_exists.mp hneeds)]
    rfl

/-! ## Two stores -/

def IterationOrder.reversed : IterationOrder where
  visit := List.reverse
  perm := List.reverse_perm

def zeroModule : Module where
  functions :=
    [⟨"zero",
      [⟨0,
        [⟨0, .void, .store (.const (.int 64 0)) (.arg 0 (.ptr (.int 64)))⟩,
          ⟨1, .void, .store (.const (.int 64 0)) (.arg 1 (.ptr (.int 64)))⟩,
          ⟨2, .void, .ret none⟩]⟩]⟩]
  distinct := by decide

/-- The two orders do give different numbers. -/
theorem runOnModule_renumbered_zeroModule :
    ∃ M' M'', runOnModule .inOrder .inOrder 1 zeroModule = some M' ∧
      runOnModule .inOrder .reversed 1 zeroModule = some M'' ∧ M' ≠ M'' ∧
      Renumbered zeroModule M' M'' := by
  obtain ⟨M', hM'⟩ : ∃ M', runOnModule .inOrder .inOrder 1 zeroModule = some M' :=
    Option.isSome_iff_exists.mp (by decide +kernel)
  obtain ⟨M'', hM''⟩ : ∃ M'', runOnModule .inOrder .reversed 1 zeroModule = some M'' :=
    Option.isSome_iff_exists.mp (by decide +kernel)
  have hdiffer : runOnModule .inOrder .inOrder 1 zeroModule ≠
      runOnModule .inOrder .reversed 1 zeroModule := by decide +kernel
  obtain ⟨_, hnumbers⟩ := runOnModule_renumbered hM' .inOrder .reversed
  exact ⟨M', M'', hM', hM'', fun heq => hdiffer (by rw [hM', hM'', heq]), hnumbers _ _ hM''⟩

end Carat

import Carat.TexasPass

/-!
# Where the guards go

Inserting the collected guards, in whatever order the map is traversed, weaves
one guard sequence in front of every instruction that needs one and nothing in
front of any other.
-/

namespace Carat

open Weaving

/-! ## What is inserted -/

inductive GuardSequence (bound : InstId) (guard : Guard) : List Inst → Prop where
  | plain {call : InstId} : guard.pointer.ty = voidPtrType → bound ≤ call →
      GuardSequence bound guard
        [⟨call, .void, guardCall [guard.pointer, .const (.int 32 guard.flags)]⟩]
  | folded {call : InstId} {value : Const} : guard.pointer = .const value → bound ≤ call →
      GuardSequence bound guard
        [⟨call, .void, guardCall
          [.const (.bitcast value voidPtrType), .const (.int 32 guard.flags)]⟩]
  | cast {cast call : InstId} : bound ≤ cast → bound ≤ call →
      GuardSequence bound guard
        [⟨cast, voidPtrType, .bitcast guard.pointer⟩,
          ⟨call, .void, guardCall
            [.inst cast voidPtrType, .const (.int 32 guard.flags)]⟩]

theorem GuardSequence.isPhi {bound : InstId} {guard : Guard} {sequence : List Inst}
    (hsequence : GuardSequence bound guard sequence) : ∀ J ∈ sequence, J.isPhi = false := by
  cases hsequence <;> simp [Inst.isPhi, Op.isPhi, guardCall]

/-- What stands in front of a guarded instruction, up to the numbers of the new
instructions. -/
def guardInsts (guard : Guard) (cast call : InstId) : List Inst :=
  if guard.pointer.ty = voidPtrType then
    [⟨call, .void, guardCall [guard.pointer, .const (.int 32 guard.flags)]⟩]
  else
    match guard.pointer with
    | .const value =>
        [⟨call, .void, guardCall
          [.const (.bitcast value voidPtrType), .const (.int 32 guard.flags)]⟩]
    | v =>
        [⟨cast, voidPtrType, .bitcast v⟩,
          ⟨call, .void, guardCall [.inst cast voidPtrType, .const (.int 32 guard.flags)]⟩]

theorem guardInsts_sequence {bound cast call : InstId} (guard : Guard) (hcast : bound ≤ cast)
    (hcall : bound ≤ call) : GuardSequence bound guard (guardInsts guard cast call) := by
  obtain ⟨_, pointer, _⟩ := guard
  unfold guardInsts
  by_cases hty : pointer.ty = voidPtrType
  · rw [if_pos hty]
    exact .plain hty hcall
  · rw [if_neg hty]
    cases pointer with
    | const value => exact .folded rfl hcall
    | inst id ty => exact .cast hcast hcall
    | arg index ty => exact .cast hcast hcall

/-- Weave instructions into a function, in front of instructions of a given
identity. -/
def Function.weaveInsts (before : InstId → List Inst) (F : Function) : Function :=
  F.mapInsts (weave fun I => before I.id)

/-- `M'` is `M` with fresh instructions woven in. -/
structure WovenInto (M M' : Module) (before : InstId → List Inst) : Prop where
  functions : M'.functions = M.functions.map (Function.weaveInsts before)
  fresh : ∀ id, ∀ J ∈ before id, M.freshId ≤ J.id

theorem Function.insts_weaveInsts (before : InstId → List Inst) (F : Function) :
    (F.weaveInsts before).insts = weave (fun I => before I.id) F.insts := by
  obtain ⟨name, blocks⟩ := F
  simp only [insts, weaveInsts, mapInsts]
  induction blocks with
  | nil => rfl
  | cons B rest ih =>
      rw [List.map_cons, List.flatMap_cons, List.flatMap_cons, weave_append, ih]

namespace WovenInto

variable {M M' : Module} {before : InstId → List Inst}

theorem insts (hwoven : WovenInto M M' before) :
    M'.insts = weave (fun I => before I.id) M.insts := by
  unfold Module.insts
  rw [hwoven.functions]
  generalize M.functions = functions
  induction functions with
  | nil => rfl
  | cons F rest ih =>
      rw [List.map_cons, List.flatMap_cons, List.flatMap_cons, weave_append, ih,
        Function.insts_weaveInsts]

theorem freshId_le (hwoven : WovenInto M M' before) : M.freshId ≤ M'.freshId := by
  apply Module.freshId_mono
  intro I hI
  rw [hwoven.insts, mem_weave]
  exact Or.inl hI

theorem refl (M : Module) : WovenInto M M fun _ => [] where
  functions := by
    have hsame : Function.weaveInsts (fun _ => []) = id := by
      funext F
      obtain ⟨name, blocks⟩ := F
      simp [Function.weaveInsts, Function.mapInsts, weave_empty]
    rw [hsame, List.map_id]
  fresh := by simp

theorem insertBefore (hwoven : WovenInto M M' before) {target : InstId}
    (htarget : target < M.freshId) (ty : Ty) (op : Op) :
    WovenInto M (M'.insertBefore target ty op)
      (Function.update before target (before target ++ [⟨M'.freshId, ty, op⟩])) where
  functions := by
    simp only [Module.insertBefore, hwoven.functions, List.map_map]
    refine List.map_congr_left fun F _ => ?_
    obtain ⟨name, blocks⟩ := F
    simp only [Function.comp_apply, Function.mapInsts, Function.weaveInsts, List.map_map,
      Function.mk.injEq, true_and]
    refine List.map_congr_left fun B _ => ?_
    have hold : ∀ I ∈ B.insts, ∀ J ∈ before I.id, (J.id == target) = false := by
      intro I _ J hJ
      rw [beq_eq_false_iff_ne]
      exact (htarget.trans_le (hwoven.fresh I.id J hJ)).ne'
    simp only [Function.comp_apply, insertBefore_weave hold, Block.mk.injEq, true_and]
    refine weave_congr fun I _ => ?_
    by_cases hI : I.id = target
    · simp [hI]
    · simp [hI, Function.update_of_ne]
  fresh := by
    intro id J hJ
    by_cases hid : id = target
    · subst id
      rw [Function.update_self, List.mem_append, List.mem_singleton] at hJ
      rcases hJ with hJ | rfl
      · exact hwoven.fresh target J hJ
      · exact hwoven.freshId_le
    · rw [Function.update_of_ne hid] at hJ
      exact hwoven.fresh id J hJ

/-- Inserting one guard, when nothing stands in front of its instruction yet. -/
theorem createGuard (hwoven : WovenInto M M' before) {guard : Guard}
    (htarget : guard.I < M.freshId) (hnone : before guard.I = []) :
    ∃ cast call, M.freshId ≤ cast ∧ M.freshId ≤ call ∧
      WovenInto M (createGuard M' guard)
        (Function.update before guard.I (guardInsts guard cast call)) := by
  have hfresh := hwoven.freshId_le
  have hcast : ∀ v, WovenInto M (M'.insertBefore guard.I voidPtrType (.bitcast v))
      (Function.update before guard.I [⟨M'.freshId, voidPtrType, .bitcast v⟩]) := fun v => by
    simpa [hnone] using hwoven.insertBefore htarget voidPtrType (.bitcast v)
  have hcall : ∀ ptr, WovenInto M
      (M'.insertBefore guard.I .void (guardCall [ptr, .const (.int 32 guard.flags)]))
      (Function.update before guard.I
        [⟨M'.freshId, .void, guardCall [ptr, .const (.int 32 guard.flags)]⟩]) := fun ptr => by
    simpa [hnone] using hwoven.insertBefore htarget .void
      (guardCall [ptr, .const (.int 32 guard.flags)])
  have hboth : ∀ v, WovenInto M
      ((M'.insertBefore guard.I voidPtrType (.bitcast v)).insertBefore guard.I .void
        (guardCall [.inst M'.freshId voidPtrType, .const (.int 32 guard.flags)]))
      (Function.update before guard.I
        [⟨M'.freshId, voidPtrType, .bitcast v⟩,
          ⟨(M'.insertBefore guard.I voidPtrType (.bitcast v)).freshId, .void,
            guardCall [.inst M'.freshId voidPtrType, .const (.int 32 guard.flags)]⟩]) :=
    fun v => by
      simpa using (hcast v).insertBefore htarget .void
        (guardCall [.inst M'.freshId voidPtrType, .const (.int 32 guard.flags)])
  unfold Carat.createGuard createPointerCast guardInsts
  by_cases hty : guard.pointer.ty = voidPtrType
  · simp only [if_pos hty]
    exact ⟨_, _, hfresh, hfresh, hcall _⟩
  · simp only [if_neg hty]
    cases guard.pointer with
    | const value => exact ⟨_, _, hfresh, hfresh, hcall _⟩
    | inst id ty => exact ⟨_, _, hfresh, (hcast _).freshId_le, hboth _⟩
    | arg index ty => exact ⟨_, _, hfresh, (hcast _).freshId_le, hboth _⟩

theorem insertGuards {entries : List GuardEntry} :
    ∀ {M' : Module} {before : InstId → List Inst}, WovenInto M M' before →
      (entries.map Sigma.fst).Nodup → (∀ kv ∈ entries, kv.2.I = kv.1) →
      (∀ kv ∈ entries, kv.1 < M.freshId) → (∀ kv ∈ entries, before kv.1 = []) →
      ∃ before', WovenInto M (insertGuards M' entries) before' ∧
        (∀ kv ∈ entries, ∃ cast call, M.freshId ≤ cast ∧ M.freshId ≤ call ∧
          before' kv.1 = guardInsts kv.2 cast call) ∧
        ∀ id, id ∉ entries.map Sigma.fst → before' id = before id := by
  induction entries with
  | nil =>
      intro M' before hwoven _ _ _ _
      exact ⟨before, hwoven, by simp, fun _ _ => rfl⟩
  | cons kv rest ih =>
      intro M' before hwoven hkeys hI htarget hnone
      obtain ⟨key, guard⟩ := kv
      obtain ⟨hkey, hkeys'⟩ := List.nodup_cons.mp hkeys
      obtain ⟨hguard, hI'⟩ := List.forall_mem_cons.mp hI
      obtain ⟨hold, htarget'⟩ := List.forall_mem_cons.mp htarget
      obtain ⟨hempty, hnone'⟩ := List.forall_mem_cons.mp hnone
      obtain rfl : guard.I = key := hguard
      obtain ⟨cast, call, hcast, hcall, hcreated⟩ := hwoven.createGuard hold hempty
      have hne : ∀ other ∈ rest, other.1 ≠ guard.I := by
        intro other hother heq
        exact hkey (List.mem_map.mpr ⟨other, hother, heq⟩)
      obtain ⟨before', hwoven', hsequences, hkept⟩ :=
        ih hcreated hkeys' hI' htarget' fun other hother => by
          rw [Function.update_of_ne (hne other hother)]
          exact hnone' other hother
      refine ⟨before', hwoven', ?_, ?_⟩
      · rw [List.forall_mem_cons]
        exact ⟨⟨cast, call, hcast, hcall, by rw [hkept _ hkey, Function.update_self]⟩,
          hsequences⟩
      · intro id hid
        obtain ⟨hid, hrest⟩ : id ≠ guard.I ∧ id ∉ rest.map Sigma.fst := by simpa using hid
        rw [hkept id hrest, Function.update_of_ne hid]

end WovenInto

/-- What the pass makes of a module: a guard sequence in front of every
instruction that needs one, nothing in front of any other. -/
structure Instrumented (M M' : Module) (before : InstId → List Inst) : Prop where
  woven : WovenInto (M.getOrInsertFunction "texas_guard") M' before
  guarded : ∀ I ∈ M.insts, ∀ guard, NeedsGuard M I guard →
    GuardSequence M.freshId guard (before I.id)
  unguarded : ∀ I ∈ M.insts, (∀ guard, ¬NeedsGuard M I guard) → before I.id = []

namespace Instrumented

variable {M M' : Module} {before : InstId → List Inst} (hinst : Instrumented M M' before)

include hinst

theorem before_of_no_access {I : Inst} (hI : I ∈ M.insts) (hnone : I.op.access = none) :
    before I.id = [] := by
  apply hinst.unguarded I hI
  rintro guard ⟨ptr, flags, haccess, _⟩
  simp [hnone] at haccess

theorem isPhi_before {I : Inst} (hI : I ∈ M.insts) :
    ∀ J ∈ before I.id, J.isPhi = false := by
  intro J hJ
  by_cases hneeds : ∃ guard, NeedsGuard M I guard
  · obtain ⟨guard, hneeds⟩ := hneeds
    exact (hinst.guarded I hI guard hneeds).isPhi J hJ
  · rw [hinst.unguarded I hI (not_exists.mp hneeds)] at hJ
    simp at hJ

end Instrumented

section Declaration

variable (M : Module) (name : String)

@[simp] theorem inst?_getOrInsertFunction :
    (M.getOrInsertFunction name).inst? = M.inst? := by
  funext id
  simp [Module.inst?]

@[simp] theorem freshId_getOrInsertFunction :
    (M.getOrInsertFunction name).freshId = M.freshId := by
  simp [Module.freshId]

@[simp] theorem getInternalPointer_getOrInsertFunction :
    getInternalPointer (M.getOrInsertFunction name) = getInternalPointer M := by
  funext v
  cases v <;> simp [getInternalPointer]

theorem baseOf_getOrInsertFunction {v base : Value} :
    BaseOf (M.getOrInsertFunction name) v base ↔ BaseOf M v base := by
  constructor <;> intro hbase
  · induction hbase with
    | here hnext => exact .here (by simpa using hnext)
    | step hnext _ ih => exact .step (by simpa using hnext) ih
  · induction hbase with
    | here hnext => exact .here (by simpa using hnext)
    | step hnext _ ih => exact .step (by simpa using hnext) ih

@[simp] theorem isAlloca_getOrInsertFunction :
    isAlloca (M.getOrInsertFunction name) = isAlloca M := by
  funext v
  cases v <;> simp [isAlloca]

@[simp] theorem isRedundant_getOrInsertFunction :
    isRedundant (M.getOrInsertFunction name) = isRedundant M := by
  funext v
  cases v <;> simp [isRedundant]

@[simp] theorem internalWalk_getOrInsertFunction (fuel : ℕ) :
    internalWalk (M.getOrInsertFunction name) fuel = internalWalk M fuel := by
  funext v
  induction fuel generalizing v with
  | zero => rfl
  | succ fuel ih => simp only [internalWalk, getInternalPointer_getOrInsertFunction, ih]

theorem needsGuard_getOrInsertFunction {I : Inst} {guard : Guard} :
    NeedsGuard (M.getOrInsertFunction name) I guard ↔ NeedsGuard M I guard := by
  simp only [NeedsGuard, Exempt, isAlloca_getOrInsertFunction, isRedundant_getOrInsertFunction,
    baseOf_getOrInsertFunction]

end Declaration

/-- Only the numbers of the new instructions are left to the traversal. -/
theorem runOnModule_woven {toGuardOrder allGuardsOrder : IterationOrder}
    {fuel : ℕ} {M M' : Module}
    (hrun : runOnModule toGuardOrder allGuardsOrder fuel M = some M') :
    ∃ before, WovenInto (M.getOrInsertFunction "texas_guard") M' before ∧
      (∀ I ∈ M.insts, ∀ guard, NeedsGuard M I guard →
        ∃ cast call, M.freshId ≤ cast ∧ M.freshId ≤ call ∧
          before I.id = guardInsts guard cast call) ∧
      ∀ I ∈ M.insts, (∀ guard, ¬NeedsGuard M I guard) → before I.id = [] := by
  obtain ⟨allGuards, hfind, rfl⟩ := Option.map_eq_some_iff.mp hrun
  let M₀ := M.getOrInsertFunction "texas_guard"
  have hexact : GuardsExactly M₀ M₀.insts allGuards := by
    have hfound := findGuards_exact [] (fun J hJ => hJ) (guardsExactly_empty M₀) hfind
    rwa [List.nil_append] at hfound
  have hperm := allGuardsOrder.perm allGuards.entries
  have hentries : ∀ kv : GuardEntry, kv ∈ allGuardsOrder.visit allGuards.entries ↔
      ∃ I ∈ M₀.insts, I.id = kv.1 ∧ NeedsGuard M₀ I kv.2 := by
    intro kv
    rw [hperm.mem_iff, ← hexact kv.1 kv.2, ← Option.mem_def, AList.mem_lookup_iff]
  have hkeys : ((allGuardsOrder.visit allGuards.entries).map Sigma.fst).Nodup :=
    (hperm.map Sigma.fst).nodup_iff.mpr allGuards.nodupKeys
  have htarget : ∀ kv ∈ allGuardsOrder.visit allGuards.entries,
      kv.2.I = kv.1 ∧ kv.1 < M₀.freshId := by
    intro kv hkv
    obtain ⟨I, hI, hid, ptr, flags, _, _, hguard⟩ := (hentries kv).mp hkv
    exact ⟨by rw [hguard, hid], hid ▸ M₀.id_lt_freshId hI⟩
  obtain ⟨before, hwoven, hsequences, hkept⟩ :=
    (WovenInto.refl M₀).insertGuards hkeys (fun kv hkv => (htarget kv hkv).1)
      (fun kv hkv => (htarget kv hkv).2) (fun _ _ => rfl)
  refine ⟨before, hwoven, ?_, ?_⟩
  · intro I hI guard hneeds
    have hmem : ⟨I.id, guard⟩ ∈ allGuardsOrder.visit allGuards.entries :=
      (hentries _).mpr ⟨I, by simpa [M₀] using hI, rfl,
        (needsGuard_getOrInsertFunction M _).mpr hneeds⟩
    simpa [M₀] using hsequences _ hmem
  · intro I hI hnone
    apply hkept
    intro hkey
    obtain ⟨kv, hkv, hid⟩ := List.mem_map.mp hkey
    obtain ⟨J, hJ, hJid, hneeds⟩ := (hentries kv).mp hkv
    obtain rfl : J = I := M.eq_of_id_eq (by simpa [M₀] using hJ) hI (hJid.trans hid)
    exact hnone kv.2 ((needsGuard_getOrInsertFunction M _).mp hneeds)

theorem runOnModule_instrumented {toGuardOrder allGuardsOrder : IterationOrder}
    {fuel : ℕ} {M M' : Module}
    (hrun : runOnModule toGuardOrder allGuardsOrder fuel M = some M') :
    ∃ before, Instrumented M M' before := by
  obtain ⟨before, hwoven, hguarded, hunguarded⟩ := runOnModule_woven hrun
  refine ⟨before, hwoven, fun I hI guard hneeds => ?_, hunguarded⟩
  obtain ⟨cast, call, hcast, hcall, hsequence⟩ := hguarded I hI guard hneeds
  exact hsequence ▸ guardInsts_sequence guard hcast hcall

theorem runOnModule_total (toGuardOrder allGuardsOrder : IterationOrder) {M : Module}
    (hwalks : M.WalksEnd) :
    ∃ bound, ∀ fuel, bound ≤ fuel →
      ∃ M', runOnModule toGuardOrder allGuardsOrder fuel M = some M' := by
  have hends : ∀ I ∈ (M.getOrInsertFunction "texas_guard").insts, ∀ ptr flags,
      I.op.access = some (ptr, flags) →
        ∃ base, BaseOf (M.getOrInsertFunction "texas_guard") ptr base := by
    intro I hI ptr flags haccess
    rw [Module.insts_getOrInsertFunction] at hI
    obtain ⟨base, hbase⟩ := hwalks I hI ptr flags haccess
    exact ⟨base, (baseOf_getOrInsertFunction M _).mpr hbase⟩
  obtain ⟨bound, hbound⟩ := findGuards_total toGuardOrder hends
  refine ⟨bound, fun fuel hfuel => ?_⟩
  obtain ⟨allGuards, hfind⟩ := hbound fuel hfuel ∅
  exact ⟨_, by rw [runOnModule, hfind, Option.map_some]⟩

theorem walksEnd_of_runOnModule {toGuardOrder allGuardsOrder : IterationOrder} {fuel : ℕ}
    {M M' : Module} (hrun : runOnModule toGuardOrder allGuardsOrder fuel M = some M') :
    M.WalksEnd := by
  obtain ⟨allGuards, hfind, _⟩ := Option.map_eq_some_iff.mp hrun
  intro I hI ptr flags haccess
  have hI' : I ∈ (M.getOrInsertFunction "texas_guard").insts := by simpa using hI
  obtain ⟨base, hbase⟩ := findGuards_ends hfind I hI' ptr flags haccess
  exact ⟨base, (baseOf_getOrInsertFunction M _).mp hbase⟩

end Carat

import Carat.Counters
import Carat.GuardInsertion
import Mathlib.Data.String.Basic

/-!
# The metrics of the pass

While it works the pass counts what it sees in a map from names to counters, and
prints the map when it is done.  The counters account for every load and store:
each is guarded, on the stack or redundant.  They are a matter of the module
alone, as no traversal order shows in them.
-/

namespace Carat

open NamedCounters Weaving

/-- `std::map<std::string, uint64_t>`. -/
abbrev Metrics := Counters String 64

/-! ## The pass, counting -/

def meteredWalk (M : Module) : ℕ → Metrics → Value → Option (Metrics × Value)
  | 0, _, _ => none
  | fuel + 1, metrics, baseptr =>
      match getInternalPointer M baseptr with
      | some internal => meteredWalk M fuel (metrics.bump "internal recurse") internal
      | none => some (metrics, baseptr)

def meteredInsertGuard (M : Module) (fuel : ℕ) (metrics : Metrics) (toGuard : GuardMap)
    (inst : InstId) (pointer : Value) (flags : ℕ) : Option (Metrics × GuardMap) :=
  (meteredWalk M fuel metrics pointer).map fun done =>
    if isAlloca M done.2 then (done.1.bump "stack", toGuard)
    else if isRedundant M pointer then (done.1.bump "redundant", toGuard)
    else (done.1, toGuard.insert inst ⟨inst, pointer, flags⟩)

def meteredVisitInst (M : Module) (fuel : ℕ) (metrics : Metrics) (toGuard : GuardMap)
    (I : Inst) : Option (Metrics × GuardMap) :=
  match I.op with
  | .store _ pointerOfStore =>
      meteredInsertGuard M fuel (metrics.bump "stores") toGuard I.id pointerOfStore texasGuardStore
  | .load pointerOfLoad =>
      meteredInsertGuard M fuel (metrics.bump "loads") toGuard I.id pointerOfLoad texasGuardLoad
  | _ => some (metrics, toGuard)

def meteredCollectGuards (M : Module) (fuel : ℕ) :
    Metrics → GuardMap → List Inst → Option (Metrics × GuardMap)
  | metrics, toGuard, [] => some (metrics, toGuard)
  | metrics, toGuard, I :: rest =>
      (meteredVisitInst M fuel metrics toGuard I).bind fun done =>
        meteredCollectGuards M fuel done.1 done.2 rest

def meteredFindGuards (M : Module) (order : IterationOrder) (fuel : ℕ) :
    Metrics → GuardMap → List Function → Option (Metrics × GuardMap)
  | metrics, allGuards, [] => some (metrics, allGuards)
  | metrics, allGuards, F :: rest =>
      if F.blocks.isEmpty then meteredFindGuards M order fuel metrics allGuards rest
      else
        (meteredCollectGuards M fuel metrics ∅ F.insts).bind fun done =>
          meteredFindGuards M order fuel done.1
            (recordGuards allGuards (order.visit done.2.entries)) rest

def meteredInsertGuards (metrics : Metrics) (M : Module) (entries : List GuardEntry) :
    Metrics × Module :=
  entries.foldl (fun done kv => (done.1.bump "guards", createGuard done.2 kv.2)) (metrics, M)

def meteredRunOnModule (toGuardOrder allGuardsOrder : IterationOrder) (fuel : ℕ)
    (M : Module) : Option (Metrics × Module) :=
  let M := M.getOrInsertFunction "texas_guard"
  (meteredFindGuards M toGuardOrder fuel Counters.empty ∅ M.functions).map fun done =>
    meteredInsertGuards done.1 M (allGuardsOrder.visit done.2.entries)

/-- `fprintf(stderr, " %7s: %lu\n", ..)`. -/
def metricLine (entry : String × BitVec 64) : List Char :=
  ' ' :: (List.replicate (7 - entry.1.length) ' ' ++ entry.1.toList) ++ ": ".toList ++
    Nat.toDigits 10 entry.2.toNat ++ ['\n']

def metricsText (metrics : Metrics) : List Char :=
  "---- Metrics ----\n".toList ++ metrics.entries.flatMap metricLine

/-! ## What is counted -/

def walkKeys (M : Module) : ℕ → Value → List String
  | 0, _ => []
  | fuel + 1, baseptr =>
      match getInternalPointer M baseptr with
      | some internal => "internal recurse" :: walkKeys M fuel internal
      | none => []

def pointerKeys (M : Module) (fuel : ℕ) (pointer : Value) : List String :=
  walkKeys M fuel pointer ++
    match internalWalk M fuel pointer with
    | some baseptr =>
        if isAlloca M baseptr then ["stack"]
        else if isRedundant M pointer then ["redundant"]
        else []
    | none => []

def visitKeys (M : Module) (fuel : ℕ) (I : Inst) : List String :=
  match I.op with
  | .store _ pointerOfStore => "stores" :: pointerKeys M fuel pointerOfStore
  | .load pointerOfLoad => "loads" :: pointerKeys M fuel pointerOfLoad
  | _ => []

theorem meteredWalk_eq (M : Module) (fuel : ℕ) (metrics : Metrics) (v : Value) :
    meteredWalk M fuel metrics v =
      (internalWalk M fuel v).map fun base => (metrics.bumpAll (walkKeys M fuel v), base) := by
  induction fuel generalizing metrics v with
  | zero => rfl
  | succ fuel ih =>
      cases hnext : getInternalPointer M v with
      | none => simp [meteredWalk, internalWalk, walkKeys, hnext]
      | some internal => simp [meteredWalk, internalWalk, walkKeys, hnext, ih]

theorem meteredInsertGuard_eq (M : Module) (fuel : ℕ) (metrics : Metrics) (toGuard : GuardMap)
    (inst : InstId) (pointer : Value) (flags : ℕ) :
    meteredInsertGuard M fuel metrics toGuard inst pointer flags =
      (insertGuard M fuel toGuard inst pointer flags).map fun toGuard =>
        (metrics.bumpAll (pointerKeys M fuel pointer), toGuard) := by
  unfold meteredInsertGuard insertGuard pointerKeys
  rw [meteredWalk_eq]
  cases hwalk : internalWalk M fuel pointer with
  | none => rfl
  | some base =>
      simp only [Option.map_some, Counters.bumpAll_append]
      split
      · simp
      · split <;> simp

theorem meteredVisitInst_eq (M : Module) (fuel : ℕ) (metrics : Metrics) (toGuard : GuardMap)
    (I : Inst) :
    meteredVisitInst M fuel metrics toGuard I =
      (visitInst M fuel toGuard I).map fun toGuard =>
        (metrics.bumpAll (visitKeys M fuel I), toGuard) := by
  obtain ⟨id, ty, op⟩ := I
  cases op <;> simp [meteredVisitInst, visitInst, visitKeys, meteredInsertGuard_eq]

theorem meteredCollectGuards_eq (M : Module) (fuel : ℕ) (metrics : Metrics) (toGuard : GuardMap)
    (insts : List Inst) :
    meteredCollectGuards M fuel metrics toGuard insts =
      (collectGuards M fuel toGuard insts).map fun toGuard =>
        (metrics.bumpAll (insts.flatMap (visitKeys M fuel)), toGuard) := by
  induction insts generalizing metrics toGuard with
  | nil => rfl
  | cons I rest ih =>
      rw [meteredCollectGuards, meteredVisitInst_eq, collectGuards]
      cases visitInst M fuel toGuard I with
      | none => rfl
      | some next => simp [ih, Counters.bumpAll_append]

theorem meteredFindGuards_eq (M : Module) (order : IterationOrder) (fuel : ℕ)
    (metrics : Metrics) (allGuards : GuardMap) (functions : List Function) :
    meteredFindGuards M order fuel metrics allGuards functions =
      (findGuards M order fuel allGuards functions).map fun allGuards =>
        (metrics.bumpAll ((functions.flatMap Function.insts).flatMap (visitKeys M fuel)),
          allGuards) := by
  induction functions generalizing metrics allGuards with
  | nil => rfl
  | cons F rest ih =>
      unfold meteredFindGuards findGuards
      by_cases hempty : F.blocks.isEmpty
      · have hinsts : F.insts = [] := by simp [Function.insts, List.isEmpty_iff.mp hempty]
        simp [hempty, ih, hinsts]
      · rw [if_neg hempty, if_neg hempty, meteredCollectGuards_eq]
        cases collectGuards M fuel ∅ F.insts with
        | none => rfl
        | some toGuard => simp [ih, Counters.bumpAll_append]

theorem meteredInsertGuards_eq (metrics : Metrics) (M : Module) (entries : List GuardEntry) :
    meteredInsertGuards metrics M entries =
      (metrics.bumpAll (List.replicate entries.length "guards"), insertGuards M entries) := by
  unfold meteredInsertGuards insertGuards
  induction entries generalizing metrics M with
  | nil => rfl
  | cons kv rest ih => rw [List.foldl_cons, ih]; rfl

theorem meteredRunOnModule_eq (toGuardOrder allGuardsOrder : IterationOrder) (fuel : ℕ)
    (M : Module) :
    meteredRunOnModule toGuardOrder allGuardsOrder fuel M =
      let M := M.getOrInsertFunction "texas_guard"
      (findGuards M toGuardOrder fuel ∅ M.functions).map fun allGuards =>
        ((Counters.empty.bumpAll (M.insts.flatMap (visitKeys M fuel))).bumpAll
            (List.replicate allGuards.entries.length "guards"),
          insertGuards M (allGuardsOrder.visit allGuards.entries)) := by
  simp only [meteredRunOnModule, meteredFindGuards_eq, Option.map_map]
  congr 1
  funext allGuards
  simp only [Function.comp_apply, meteredInsertGuards_eq,
    (allGuardsOrder.perm allGuards.entries).length_eq]
  rfl

/-- The counting changes nothing. -/
theorem map_snd_meteredRunOnModule (toGuardOrder allGuardsOrder : IterationOrder) (fuel : ℕ)
    (M : Module) :
    (meteredRunOnModule toGuardOrder allGuardsOrder fuel M).map Prod.snd =
      runOnModule toGuardOrder allGuardsOrder fuel M := by
  rw [meteredRunOnModule_eq, runOnModule]
  simp only [Option.map_map]
  rfl

/-! ## What the counters say -/

/-- The walk from the access ends at an `alloca`. -/
def StackAccess (M : Module) (I : Inst) : Prop :=
  ∃ ptr flags base, I.op.access = some (ptr, flags) ∧ BaseOf M ptr base ∧ isAlloca M base = true

def RedundantAccess (M : Module) (I : Inst) : Prop :=
  ¬StackAccess M I ∧ ∃ ptr flags, I.op.access = some (ptr, flags) ∧ isRedundant M ptr = true

def GuardedAccess (M : Module) (I : Inst) : Prop := ∃ guard, NeedsGuard M I guard

def AccessOf (flags : ℕ) (I : Inst) : Prop := ∃ ptr, I.op.access = some (ptr, flags)

theorem not_mem_walkKeys {key : String} (hkey : key ≠ "internal recurse") (M : Module)
    (fuel : ℕ) (v : Value) : key ∉ walkKeys M fuel v := by
  induction fuel generalizing v with
  | zero => simp [walkKeys]
  | succ fuel ih =>
      unfold walkKeys
      split
      · simp [hkey, ih]
      · simp

theorem walkKeys_mono {M : Module} {fuel fuel' : ℕ} (hle : fuel ≤ fuel') {v base : Value}
    (hwalk : internalWalk M fuel v = some base) : walkKeys M fuel' v = walkKeys M fuel v := by
  induction fuel generalizing v fuel' with
  | zero => simp [internalWalk] at hwalk
  | succ fuel ih =>
      obtain ⟨more, rfl⟩ : ∃ more, fuel' = more + 1 := ⟨fuel' - 1, by omega⟩
      unfold internalWalk at hwalk
      unfold walkKeys
      cases hnext : getInternalPointer M v with
      | none => rfl
      | some internal =>
          simp only [hnext] at hwalk ⊢
          rw [ih (by omega) hwalk]

theorem visitKeys_of_access {M : Module} {I : Inst} {ptr : Value} {flags : ℕ}
    (haccess : I.op.access = some (ptr, flags)) (fuel : ℕ) :
    visitKeys M fuel I =
      (if flags = texasGuardStore then "stores" else "loads") :: pointerKeys M fuel ptr := by
  obtain ⟨id, ty, op⟩ := I
  cases op with
  | load ptr' =>
      obtain ⟨rfl, rfl⟩ : ptr' = ptr ∧ texasGuardLoad = flags := by simpa [Op.access] using haccess
      rfl
  | store val ptr' =>
      obtain ⟨rfl, rfl⟩ : ptr' = ptr ∧ texasGuardStore = flags := by simpa [Op.access] using haccess
      rfl
  | _ => simp [Op.access] at haccess

theorem visitKeys_of_no_access {M : Module} {I : Inst} (hnone : I.op.access = none) (fuel : ℕ) :
    visitKeys M fuel I = [] := by
  obtain ⟨id, ty, op⟩ := I
  cases op <;> simp_all [Op.access, visitKeys]

section OneAccess

variable {M : Module} {I : Inst} {ptr base : Value} {flags : ℕ}
  (haccess : I.op.access = some (ptr, flags))

include haccess

theorem accessOf_iff (kind : ℕ) : AccessOf kind I ↔ flags = kind := by
  simp [AccessOf, haccess]

theorem access_kind : flags = texasGuardLoad ∨ flags = texasGuardStore := by
  obtain ⟨id, ty, op⟩ := I
  cases op <;> simp [Op.access] at haccess
  · exact Or.inl haccess.2.symm
  · exact Or.inr haccess.2.symm

variable (hbase : BaseOf M ptr base)

include hbase

theorem stackAccess_iff : StackAccess M I ↔ isAlloca M base = true := by
  constructor
  · rintro ⟨ptr', flags', base', haccess', hbase', halloca⟩
    obtain ⟨rfl, rfl⟩ : ptr = ptr' ∧ flags = flags' := by simpa [haccess] using haccess'
    rwa [hbase.unique hbase']
  · exact fun halloca => ⟨ptr, flags, base, haccess, hbase, halloca⟩

theorem redundantAccess_iff :
    RedundantAccess M I ↔ isAlloca M base = false ∧ isRedundant M ptr = true := by
  simp [RedundantAccess, stackAccess_iff haccess hbase, haccess]

theorem guardedAccess_iff :
    GuardedAccess M I ↔ isAlloca M base = false ∧ isRedundant M ptr = false := by
  have hexempt : Exempt M ptr ↔ isAlloca M base = true ∨ isRedundant M ptr = true := by
    refine or_congr_left ⟨?_, fun halloca => ⟨base, hbase, halloca⟩⟩
    rintro ⟨base', hbase', halloca⟩
    rwa [hbase.unique hbase']
  simp [GuardedAccess, NeedsGuard, haccess, hexempt]

end OneAccess

section OneInstruction

open Classical

variable {M : Module} {I : Inst}

theorem count_visitKeys {fuel : ℕ}
    (hends : ∀ ptr flags, I.op.access = some (ptr, flags) →
      ∃ base, internalWalk M fuel ptr = some base) :
    (visitKeys M fuel I).count "loads" = (if AccessOf texasGuardLoad I then 1 else 0) ∧
    (visitKeys M fuel I).count "stores" = (if AccessOf texasGuardStore I then 1 else 0) ∧
    (visitKeys M fuel I).count "stack" = (if StackAccess M I then 1 else 0) ∧
    (visitKeys M fuel I).count "redundant" = (if RedundantAccess M I then 1 else 0) ∧
    (visitKeys M fuel I).count "guards" = 0 := by
  cases haccess : I.op.access with
  | none =>
      rw [visitKeys_of_no_access haccess]
      simp [AccessOf, StackAccess, RedundantAccess, haccess]
  | some access =>
      obtain ⟨ptr, flags⟩ := access
      obtain ⟨base, hwalk⟩ := hends ptr flags haccess
      have hbase := internalWalk_sound hwalk
      have hsteps : ∀ key, key ≠ "internal recurse" → (walkKeys M fuel ptr).count key = 0 :=
        fun key hkey => List.count_eq_zero.mpr (not_mem_walkKeys hkey M fuel ptr)
      rw [visitKeys_of_access haccess, pointerKeys, hwalk]
      simp only [accessOf_iff haccess, stackAccess_iff haccess hbase,
        redundantAccess_iff haccess hbase, List.count_cons, List.count_append]
      rcases access_kind haccess with rfl | rfl <;>
        cases isAlloca M base <;> cases isRedundant M ptr <;>
          simp [hsteps, texasGuardLoad, texasGuardStore]

theorem balance_visit
    (hends : ∀ ptr flags, I.op.access = some (ptr, flags) → ∃ base, BaseOf M ptr base) :
    (if AccessOf texasGuardLoad I then 1 else 0) + (if AccessOf texasGuardStore I then 1 else 0) =
      (if StackAccess M I then 1 else 0) + (if RedundantAccess M I then 1 else 0) +
        (if GuardedAccess M I then 1 else 0) := by
  cases haccess : I.op.access with
  | none => simp [AccessOf, StackAccess, RedundantAccess, GuardedAccess, NeedsGuard, haccess]
  | some access =>
      obtain ⟨ptr, flags⟩ := access
      obtain ⟨base, hbase⟩ := hends ptr flags haccess
      simp only [accessOf_iff haccess, stackAccess_iff haccess hbase,
        redundantAccess_iff haccess hbase, guardedAccess_iff haccess hbase]
      rcases access_kind haccess with rfl | rfl <;>
        cases isAlloca M base <;> cases isRedundant M ptr <;>
          simp [texasGuardLoad, texasGuardStore]

end OneInstruction

theorem visitKeys_mono {M : Module} {fuel fuel' : ℕ} (hle : fuel ≤ fuel') {I : Inst}
    (hends : ∀ ptr flags, I.op.access = some (ptr, flags) →
      ∃ base, internalWalk M fuel ptr = some base) :
    visitKeys M fuel' I = visitKeys M fuel I := by
  cases haccess : I.op.access with
  | none => rw [visitKeys_of_no_access haccess, visitKeys_of_no_access haccess]
  | some access =>
      obtain ⟨ptr, flags⟩ := access
      obtain ⟨base, hwalk⟩ := hends ptr flags haccess
      rw [visitKeys_of_access haccess, visitKeys_of_access haccess, pointerKeys, pointerKeys,
        walkKeys_mono hle hwalk, hwalk, internalWalk_mono hle hwalk]

theorem count_flatMap_eq_countP {α κ : Type*} [DecidableEq κ] {keysOf : α → List κ} {key : κ}
    {counted : α → Prop} [DecidablePred counted] {items : List α}
    (hcount : ∀ a ∈ items, (keysOf a).count key = if counted a then 1 else 0) :
    (items.flatMap keysOf).count key = items.countP fun a => counted a := by
  induction items with
  | nil => rfl
  | cons a rest ih =>
      obtain ⟨ha, hrest⟩ := List.forall_mem_cons.mp hcount
      rw [List.flatMap_cons, List.count_append, ha, ih hrest, List.countP_cons, Nat.add_comm]
      simp

/-- The counters of a pass over this module. -/
structure Metrics.Account (M : Module) (metrics : Metrics) : Prop where
  loads : open Classical in
    metrics.count "loads" = BitVec.ofNat 64 (M.insts.countP fun I => AccessOf texasGuardLoad I)
  stores : open Classical in
    metrics.count "stores" = BitVec.ofNat 64 (M.insts.countP fun I => AccessOf texasGuardStore I)
  stack : open Classical in
    metrics.count "stack" = BitVec.ofNat 64 (M.insts.countP fun I => StackAccess M I)
  redundant : open Classical in
    metrics.count "redundant" = BitVec.ofNat 64 (M.insts.countP fun I => RedundantAccess M I)
  guards : open Classical in
    metrics.count "guards" = BitVec.ofNat 64 (M.insts.countP fun I => GuardedAccess M I)

section Totals

open Classical

variable {M : Module}

theorem length_entries_eq_countP {guards : GuardMap} (hexact : GuardsExactly M M.insts guards) :
    guards.entries.length = M.insts.countP fun I => GuardedAccess M I := by
  have hperm : (guards.entries.map Sigma.fst).Perm
      ((M.insts.filter fun I => GuardedAccess M I).map Inst.id) := by
    have hkeys : (guards.entries.map Sigma.fst).Nodup := guards.nodupKeys
    have hids : ((M.insts.filter fun I => GuardedAccess M I).map Inst.id).Nodup :=
      M.distinct.sublist (List.filter_sublist.map Inst.id)
    refine (List.perm_ext_iff_of_nodup hkeys hids).mpr fun id => ?_
    have hmem : id ∈ guards.entries.map Sigma.fst ↔ ∃ guard, guards.lookup id = some guard := by
      rw [← Option.isSome_iff_exists, AList.lookup_isSome]
      rfl
    rw [hmem]
    simp only [hexact id, List.mem_map, List.mem_filter, decide_eq_true_eq]
    constructor
    · rintro ⟨guard, I, hI, hid, hneeds⟩
      exact ⟨I, ⟨hI, guard, hneeds⟩, hid⟩
    · rintro ⟨I, ⟨hI, guard, hneeds⟩, hid⟩
      exact ⟨guard, I, hI, hid, hneeds⟩
  have hlength := hperm.length_eq
  rw [List.length_map, List.length_map] at hlength
  rw [hlength, List.countP_eq_length_filter]

/-- Every access is guarded, on the stack or redundant. -/
theorem countP_balance {insts : List Inst}
    (hends : ∀ I ∈ insts, ∀ ptr flags, I.op.access = some (ptr, flags) →
      ∃ base, BaseOf M ptr base) :
    (insts.countP fun I => AccessOf texasGuardLoad I) +
        (insts.countP fun I => AccessOf texasGuardStore I) =
      (insts.countP fun I => StackAccess M I) + (insts.countP fun I => RedundantAccess M I) +
        (insts.countP fun I => GuardedAccess M I) := by
  induction insts with
  | nil => rfl
  | cons I rest ih =>
      obtain ⟨hI, hrest⟩ := List.forall_mem_cons.mp hends
      have hone := balance_visit hI
      simp only [List.countP_cons, decide_eq_true_eq]
      have hsum := ih hrest
      omega

end Totals

section Declared

variable (M : Module) (name : String) (fuel : ℕ)

@[simp] theorem walkKeys_getOrInsertFunction :
    walkKeys (M.getOrInsertFunction name) fuel = walkKeys M fuel := by
  funext v
  induction fuel generalizing v with
  | zero => rfl
  | succ fuel ih => simp only [walkKeys, getInternalPointer_getOrInsertFunction, ih]

@[simp] theorem visitKeys_getOrInsertFunction :
    visitKeys (M.getOrInsertFunction name) fuel = visitKeys M fuel := by
  funext I
  obtain ⟨id, ty, op⟩ := I
  cases op <;> simp [visitKeys, pointerKeys]

end Declared

/-! ## The figures of the pass -/

/-- A call of the guard. -/
def Inst.isGuardCall (I : Inst) : Bool :=
  match I.op with
  | .call (.function name) _ => name == "texas_guard"
  | _ => false

theorem GuardSequence.countP_isGuardCall {bound : InstId} {guard : Guard} {sequence : List Inst}
    (hsequence : GuardSequence bound guard sequence) : sequence.countP Inst.isGuardCall = 1 := by
  cases hsequence <;> simp [Inst.isGuardCall, guardCall]

open Classical in
theorem Instrumented.countP_isGuardCall {M M' : Module} {before : InstId → List Inst}
    (hinst : Instrumented M M' before) :
    M'.insts.countP Inst.isGuardCall =
      M.insts.countP Inst.isGuardCall + M.insts.countP fun I => GuardedAccess M I := by
  rw [hinst.woven.insts, M.insts_getOrInsertFunction]
  apply countP_weave
  intro I hI
  by_cases hneeds : GuardedAccess M I
  · rw [if_pos (decide_eq_true hneeds)]
    obtain ⟨guard, hneeds⟩ := hneeds
    exact (hinst.guarded I hI guard hneeds).countP_isGuardCall
  · rw [hinst.unguarded I hI (not_exists.mp hneeds)]
    simp [hneeds]

section Figures

open Classical

variable {toGuardOrder allGuardsOrder : IterationOrder} {fuel : ℕ} {M M' : Module}
  {metrics : Metrics} (hrun : meteredRunOnModule toGuardOrder allGuardsOrder fuel M =
    some (metrics, M'))

include hrun

theorem runOnModule_of_metered : runOnModule toGuardOrder allGuardsOrder fuel M = some M' := by
  rw [← map_snd_meteredRunOnModule, hrun, Option.map_some]

theorem walks_of_metered : ∀ I ∈ M.insts, ∀ ptr flags, I.op.access = some (ptr, flags) →
    ∃ base, internalWalk M fuel ptr = some base := by
  obtain ⟨allGuards, hfind, _⟩ := Option.map_eq_some_iff.mp (runOnModule_of_metered hrun)
  have hwalks := findGuards_walks hfind
  simp only [internalWalk_getOrInsertFunction] at hwalks
  intro I hI
  exact hwalks I (by rwa [← M.insts_getOrInsertFunction "texas_guard"] at hI)

theorem metrics_eq_bumpAll :
    metrics = Counters.empty.bumpAll (M.insts.flatMap (visitKeys M fuel) ++
      List.replicate (M.insts.countP fun I => GuardedAccess M I) "guards") := by
  rw [meteredRunOnModule_eq] at hrun
  obtain ⟨allGuards, hfind, hdone⟩ := Option.map_eq_some_iff.mp hrun
  have hexact : GuardsExactly M M.insts allGuards := by
    have hfound := findGuards_exact [] (fun J hJ => hJ) (guardsExactly_empty _) hfind
    rw [List.nil_append, ← Module.insts, M.insts_getOrInsertFunction] at hfound
    intro id guard
    simp only [hfound id guard, needsGuard_getOrInsertFunction]
  obtain ⟨rfl, _⟩ := Prod.mk.inj hdone
  rw [Counters.bumpAll_append, length_entries_eq_countP hexact]
  simp

theorem metered_account : metrics.Account M := by
  have hvisit := fun I hI => count_visitKeys (walks_of_metered hrun I hI)
  have hcount : ∀ key, metrics.count key = BitVec.ofNat 64
      ((M.insts.flatMap (visitKeys M fuel)).count key +
        (List.replicate (M.insts.countP fun I => GuardedAccess M I) "guards").count key) := by
    intro key
    rw [metrics_eq_bumpAll hrun, Counters.count_bumpAll_empty, List.count_append]
  constructor
  · rw [hcount, count_flatMap_eq_countP fun I hI => (hvisit I hI).1]
    simp [List.count_replicate]
  · rw [hcount, count_flatMap_eq_countP fun I hI => (hvisit I hI).2.1]
    simp [List.count_replicate]
  · rw [hcount, count_flatMap_eq_countP fun I hI => (hvisit I hI).2.2.1]
    simp [List.count_replicate]
  · rw [hcount, count_flatMap_eq_countP fun I hI => (hvisit I hI).2.2.2.1]
    simp [List.count_replicate]
  · have hnone : (M.insts.flatMap (visitKeys M fuel)).count "guards" = 0 := by
      rw [List.count_flatMap, List.sum_eq_zero_iff]
      simp only [List.mem_map, Function.comp_apply]
      rintro _ ⟨I, hI, rfl⟩
      exact (hvisit I hI).2.2.2.2
    simp [hcount, hnone]

/-- No traversal order and no longer walk shows in the figures. -/
theorem metered_unique {toGuardOrder' allGuardsOrder' : IterationOrder} {fuel' : ℕ}
    {metrics' : Metrics} {M'' : Module}
    (hrun' : meteredRunOnModule toGuardOrder' allGuardsOrder' fuel' M = some (metrics', M'')) :
    metrics' = metrics := by
  have hkeys : ∀ I ∈ M.insts, visitKeys M fuel' I = visitKeys M fuel I := by
    intro I hI
    rcases le_total fuel fuel' with hle | hle
    · exact visitKeys_mono hle (walks_of_metered hrun I hI)
    · exact (visitKeys_mono hle (walks_of_metered hrun' I hI)).symm
  rw [metrics_eq_bumpAll hrun, metrics_eq_bumpAll hrun', List.flatMap_congr hkeys]

theorem metered_balance :
    metrics.count "loads" + metrics.count "stores" =
      metrics.count "stack" + metrics.count "redundant" + metrics.count "guards" := by
  have haccount := metered_account hrun
  rw [haccount.loads, haccount.stores, haccount.stack, haccount.redundant, haccount.guards,
    ← BitVec.ofNat_add, ← BitVec.ofNat_add, ← BitVec.ofNat_add, countP_balance]
  intro I hI ptr flags haccess
  obtain ⟨base, hwalk⟩ := walks_of_metered hrun I hI ptr flags haccess
  exact ⟨base, internalWalk_sound hwalk⟩

theorem metered_guardCalls :
    BitVec.ofNat 64 (M'.insts.countP Inst.isGuardCall) =
      BitVec.ofNat 64 (M.insts.countP Inst.isGuardCall) + metrics.count "guards" := by
  obtain ⟨before, hinst⟩ := runOnModule_instrumented (runOnModule_of_metered hrun)
  rw [(metered_account hrun).guards, hinst.countP_isGuardCall, BitVec.ofNat_add]

end Figures

/-- **The metrics account for the module.**  Counting changes nothing.  Each figure
is the number of instructions of its kind, loads and stores are those on the stack,
the redundant and the guarded, and the guards are the calls added.  What is printed
depends on no traversal order. -/
theorem meteredRunOnModule_metrics (toGuardOrder allGuardsOrder : IterationOrder) (fuel : ℕ)
    (M : Module) :
    (meteredRunOnModule toGuardOrder allGuardsOrder fuel M).map Prod.snd =
        runOnModule toGuardOrder allGuardsOrder fuel M ∧
      ∀ metrics M',
        meteredRunOnModule toGuardOrder allGuardsOrder fuel M = some (metrics, M') →
          metrics.Account M ∧
          metrics.count "loads" + metrics.count "stores" =
            metrics.count "stack" + metrics.count "redundant" + metrics.count "guards" ∧
          BitVec.ofNat 64 (M'.insts.countP Inst.isGuardCall) =
            BitVec.ofNat 64 (M.insts.countP Inst.isGuardCall) + metrics.count "guards" ∧
          ∀ (toGuardOrder' allGuardsOrder' : IterationOrder) (fuel' : ℕ) (metrics' : Metrics)
            (M'' : Module),
            meteredRunOnModule toGuardOrder' allGuardsOrder' fuel' M = some (metrics', M'') →
              metricsText metrics' = metricsText metrics :=
  ⟨map_snd_meteredRunOnModule toGuardOrder allGuardsOrder fuel M, fun _ _ hrun =>
    ⟨metered_account hrun, metered_balance hrun, metered_guardCalls hrun,
      fun _ _ _ _ _ hrun' => congrArg metricsText (metered_unique hrun hrun')⟩⟩

/-- A store to a local through a `getelementptr`, one to a fresh buffer, and a load
through the argument. -/
def bufferModule : Module where
  functions :=
    [⟨"buffer",
      [⟨0,
        [⟨0, .ptr (.int 8), .alloca (.int 8) (.const (.int 32 4))⟩,
          ⟨1, .ptr (.int 8), .getelementptr (.inst 0 (.ptr (.int 8))) [.const (.int 64 1)]⟩,
          ⟨2, .void, .store (.const (.int 8 0)) (.inst 1 (.ptr (.int 8)))⟩,
          ⟨3, .ptr (.int 8), .call (.function "malloc") [.const (.int 64 16)]⟩,
          ⟨4, .void, .store (.const (.int 8 0)) (.inst 3 (.ptr (.int 8)))⟩,
          ⟨5, .int 8, .load (.arg 0 (.ptr (.int 8)))⟩,
          ⟨6, .void, .ret none⟩]⟩]⟩]
  distinct := by decide

example : (meteredRunOnModule .inOrder .inOrder 3 bufferModule).map (metricsText ·.1) =
    some ("---- Metrics ----\n  guards: 1\n internal recurse: 1\n   loads: 1\n" ++
      " redundant: 1\n   stack: 1\n  stores: 2\n").toList := by
  decide +kernel

theorem meteredRunOnModule_metrics_bufferModule :
    ∃ metrics M', runOnModule .inOrder .inOrder 3 bufferModule = some M' ∧
      metrics.Account bufferModule ∧
      metrics.count "loads" + metrics.count "stores" =
        metrics.count "stack" + metrics.count "redundant" + metrics.count "guards" ∧
      BitVec.ofNat 64 (M'.insts.countP Inst.isGuardCall) = metrics.count "guards" ∧
      ∀ (toGuardOrder allGuardsOrder : IterationOrder) (fuel : ℕ) (metrics' : Metrics)
        (M'' : Module),
        meteredRunOnModule toGuardOrder allGuardsOrder fuel bufferModule = some (metrics', M'') →
          metricsText metrics' = metricsText metrics := by
  have hsome : (meteredRunOnModule .inOrder .inOrder 3 bufferModule).isSome = true := by
    decide +kernel
  obtain ⟨⟨metrics, M'⟩, hrun⟩ := Option.isSome_iff_exists.mp hsome
  obtain ⟨hsame, hfigures⟩ := meteredRunOnModule_metrics .inOrder .inOrder 3 bufferModule
  obtain ⟨haccount, hbalance, hcalls, horders⟩ := hfigures metrics M' hrun
  rw [hrun, Option.map_some] at hsame
  have hnone : bufferModule.insts.countP Inst.isGuardCall = 0 := by decide
  rw [hnone, BitVec.zero_add] at hcalls
  exact ⟨metrics, M', hsame.symm, haccount, hbalance, hcalls, horders⟩

end Carat

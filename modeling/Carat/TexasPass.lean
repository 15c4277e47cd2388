import Carat.ModuleIR
import Mathlib.Data.List.AList

/-!
# The protection pass

`TexasProtectionPass::runOnModule`: collect a guard for every load and store that
is not exempt, function by function in a hash map, merge these maps into one, and
then insert the guards in whatever order that map is traversed.

What is collected depends on neither traversal order: one guard for every load and
store that is not exempt.
-/

namespace Carat

open Weaving

def texasGuardLoad : ℕ := 1

def texasGuardStore : ℕ := 2

structure Guard where
  I : InstId
  pointer : Value
  flags : ℕ
  deriving DecidableEq, Repr

/-- `std::unordered_map<Instruction *, Guard>`. -/
abbrev GuardMap := AList (fun _ : InstId => Guard)

abbrev GuardEntry := Sigma (fun _ : InstId => Guard)

/-- The order in which a range-for visits an unordered map: any. -/
structure IterationOrder where
  visit : List GuardEntry → List GuardEntry
  perm : ∀ entries, (visit entries).Perm entries

def IterationOrder.inOrder : IterationOrder where
  visit := id
  perm := fun _ => List.Perm.refl _

def getInternalPointer (M : Module) : Value → Option Value
  | .inst id _ =>
      match M.inst? id with
      | some ⟨_, _, .getelementptr ptr _⟩ => some ptr
      | some ⟨_, _, .bitcast castedFrom⟩ =>
          if castedFrom.ty.isPtr then some castedFrom else none
      | _ => none
  | _ => none

/-- `while (auto internal = getInternalPointer(baseptr)) baseptr = internal;` -/
def internalWalk (M : Module) : ℕ → Value → Option Value
  | 0, _ => none
  | fuel + 1, baseptr =>
      match getInternalPointer M baseptr with
      | some internal => internalWalk M fuel internal
      | none => some baseptr

/-- `isa<AllocaInst>(v)`. -/
def isAlloca (M : Module) : Value → Bool
  | .inst id _ =>
      match M.inst? id with
      | some ⟨_, _, .alloca _ _⟩ => true
      | _ => false
  | _ => false

/-- A direct call of `malloc` or `calloc`. -/
def isRedundant (M : Module) : Value → Bool
  | .inst id _ =>
      match M.inst? id with
      | some ⟨_, _, .call (.function name) _⟩ => name == "malloc" || name == "calloc"
      | _ => false
  | _ => false

def insertGuard (M : Module) (fuel : ℕ) (toGuard : GuardMap) (inst : InstId)
    (pointer : Value) (flags : ℕ) : Option GuardMap :=
  (internalWalk M fuel pointer).map fun baseptr =>
    if isAlloca M baseptr then toGuard
    else if isRedundant M pointer then toGuard
    else toGuard.insert inst ⟨inst, pointer, flags⟩

def visitInst (M : Module) (fuel : ℕ) (toGuard : GuardMap) (I : Inst) :
    Option GuardMap :=
  match I.op with
  | .store _ pointerOfStore =>
      insertGuard M fuel toGuard I.id pointerOfStore texasGuardStore
  | .load pointerOfLoad =>
      insertGuard M fuel toGuard I.id pointerOfLoad texasGuardLoad
  | _ => some toGuard

def collectGuards (M : Module) (fuel : ℕ) : GuardMap → List Inst → Option GuardMap
  | toGuard, [] => some toGuard
  | toGuard, I :: rest =>
      (visitInst M fuel toGuard I).bind fun toGuard => collectGuards M fuel toGuard rest

/-- "Record the guards globally." -/
def recordGuards (allGuards : GuardMap) (entries : List GuardEntry) : GuardMap :=
  entries.foldl
    (fun allGuards kv =>
      if kv.2.flags = 0 then allGuards else allGuards.insert kv.1 kv.2)
    allGuards

def findGuards (M : Module) (order : IterationOrder) (fuel : ℕ) :
    GuardMap → List Function → Option GuardMap
  | allGuards, [] => some allGuards
  | allGuards, F :: rest =>
      if F.blocks.isEmpty then findGuards M order fuel allGuards rest
      else
        (collectGuards M fuel ∅ F.insts).bind fun toGuard =>
          findGuards M order fuel
            (recordGuards allGuards (order.visit toGuard.entries)) rest

def voidPtrType : Ty := .ptr (.int 8)

/-- `IRBuilder::CreatePointerCast` in front of an instruction. -/
def createPointerCast (M : Module) (at_ : InstId) (v : Value) (ty : Ty) :
    Module × Value :=
  if v.ty = ty then (M, v)
  else
    match v with
    | .const value => (M, .const (.bitcast value ty))
    | v => (M.insertBefore at_ ty (.bitcast v), .inst M.freshId ty)

def guardCall (args : List Value) : Op := .call (.function "texas_guard") args

def createGuard (M : Module) (guard : Guard) : Module :=
  let (M, ptr) := createPointerCast M guard.I guard.pointer voidPtrType
  M.insertBefore guard.I .void (guardCall [ptr, .const (.int 32 guard.flags)])

/-- "Insert all the guards that we need to." -/
def insertGuards (M : Module) (entries : List GuardEntry) : Module :=
  entries.foldl (fun M kv => createGuard M kv.2) M

def runOnModule (toGuardOrder allGuardsOrder : IterationOrder) (fuel : ℕ)
    (M : Module) : Option Module :=
  let M := M.getOrInsertFunction "texas_guard"
  (findGuards M toGuardOrder fuel ∅ M.functions).map fun allGuards =>
    insertGuards M (allGuardsOrder.visit allGuards.entries)

/-! ## Base pointers -/

/-- Where the walk from a pointer ends. -/
inductive BaseOf (M : Module) : Value → Value → Prop where
  | here {v : Value} : getInternalPointer M v = none → BaseOf M v v
  | step {v internal base : Value} : getInternalPointer M v = some internal →
      BaseOf M internal base → BaseOf M v base

theorem internalWalk_sound {M : Module} {fuel : ℕ} {v base : Value}
    (hwalk : internalWalk M fuel v = some base) : BaseOf M v base := by
  induction fuel generalizing v with
  | zero => simp [internalWalk] at hwalk
  | succ fuel ih =>
      cases hnext : getInternalPointer M v with
      | none =>
          obtain rfl : v = base := by simpa [internalWalk, hnext] using hwalk
          exact .here hnext
      | some internal =>
          simp only [internalWalk, hnext] at hwalk
          exact .step hnext (ih hwalk)

theorem BaseOf.internalWalk_eq {M : Module} {v base : Value} (hbase : BaseOf M v base) :
    ∃ bound, ∀ fuel, bound ≤ fuel → internalWalk M fuel v = some base := by
  induction hbase with
  | here hnext =>
      refine ⟨1, fun fuel hfuel => ?_⟩
      obtain ⟨fuel, rfl⟩ : ∃ n, fuel = n + 1 := ⟨fuel - 1, by omega⟩
      simp [internalWalk, hnext]
  | step hnext _ ih =>
      obtain ⟨bound, hbound⟩ := ih
      refine ⟨bound + 1, fun fuel hfuel => ?_⟩
      obtain ⟨fuel, rfl⟩ : ∃ n, fuel = n + 1 := ⟨fuel - 1, by omega⟩
      simp only [internalWalk, hnext]
      exact hbound fuel (by omega)

theorem BaseOf.unique {M : Module} {v base base' : Value} (hbase : BaseOf M v base)
    (hbase' : BaseOf M v base') : base = base' := by
  induction hbase with
  | here hnext =>
      cases hbase' with
      | here => rfl
      | step hnext' => simp [hnext] at hnext'
  | step hnext _ ih =>
      cases hbase' with
      | here hnext' => simp [hnext] at hnext'
      | step hnext' hrest =>
          obtain rfl := Option.some.inj (hnext.symm.trans hnext')
          exact ih hrest

/-- The pass leaves accesses through this pointer alone. -/
def Exempt (M : Module) (ptr : Value) : Prop :=
  (∃ base, BaseOf M ptr base ∧ isAlloca M base = true) ∨ isRedundant M ptr = true

/-! ## Which instructions exempt -/

section Kinds

variable {M : Module} {v : Value}

theorem getInternalPointer_inst {I : Inst} (hI : I ∈ M.insts) {ty : Ty} {internal : Value} :
    getInternalPointer M (.inst I.id ty) = some internal ↔
      (∃ indices, I.op = .getelementptr internal indices) ∨
        I.op = .bitcast internal ∧ internal.ty.isPtr = true := by
  simp only [getInternalPointer, M.inst?_of_mem hI]
  obtain ⟨id, ity, op⟩ := I
  cases op with
  | bitcast src =>
      simp only [reduceCtorEq, exists_false, false_or, Op.bitcast.injEq]
      constructor
      · intro hnext
        obtain ⟨hptr, rfl⟩ := by simpa using hnext
        exact ⟨rfl, hptr⟩
      · rintro ⟨rfl, hptr⟩
        simp [hptr]
  | _ => simp

theorem isAlloca_inst {I : Inst} (hI : I ∈ M.insts) {ty : Ty} :
    isAlloca M (.inst I.id ty) = true ↔ ∃ allocated count, I.op = .alloca allocated count := by
  simp only [isAlloca, M.inst?_of_mem hI]
  obtain ⟨id, ity, op⟩ := I
  cases op <;> simp

theorem isRedundant_inst {I : Inst} (hI : I ∈ M.insts) {ty : Ty} :
    isRedundant M (.inst I.id ty) = true ↔
      ∃ name args, I.op = .call (.function name) args ∧ (name = "malloc" ∨ name = "calloc") := by
  simp only [isRedundant, M.inst?_of_mem hI]
  obtain ⟨id, ity, op⟩ := I
  cases op with
  | call callee args => cases callee <;> simp
  | _ => simp

theorem isAlloca_iff : isAlloca M v = true ↔ ∃ I ∈ M.insts, (∃ ty, v = .inst I.id ty) ∧
    ∃ allocated count, I.op = .alloca allocated count := by
  constructor
  · intro halloca
    cases v with
    | inst id ty =>
        cases hinst : M.inst? id with
        | none => simp [isAlloca, hinst] at halloca
        | some I =>
            obtain ⟨hI, rfl⟩ := Module.inst?_eq_some_iff.mp hinst
            exact ⟨I, hI, ⟨ty, rfl⟩, (isAlloca_inst hI).mp halloca⟩
    | _ => simp [isAlloca] at halloca
  · rintro ⟨I, hI, ⟨ty, rfl⟩, hop⟩
    exact (isAlloca_inst hI).mpr hop

theorem isRedundant_iff : isRedundant M v = true ↔ ∃ I ∈ M.insts, (∃ ty, v = .inst I.id ty) ∧
    ∃ name args, I.op = .call (.function name) args ∧ (name = "malloc" ∨ name = "calloc") := by
  constructor
  · intro hredundant
    cases v with
    | inst id ty =>
        cases hinst : M.inst? id with
        | none => simp [isRedundant, hinst] at hredundant
        | some I =>
            obtain ⟨hI, rfl⟩ := Module.inst?_eq_some_iff.mp hinst
            exact ⟨I, hI, ⟨ty, rfl⟩, (isRedundant_inst hI).mp hredundant⟩
    | _ => simp [isRedundant] at hredundant
  · rintro ⟨I, hI, ⟨ty, rfl⟩, hop⟩
    exact (isRedundant_inst hI).mpr hop

/-- The walk goes on from an instruction of the module. -/
theorem exists_of_getInternalPointer {internal : Value}
    (hnext : getInternalPointer M v = some internal) :
    ∃ I ∈ M.insts, ∃ ty, v = .inst I.id ty := by
  cases v with
  | inst id ty =>
      cases hinst : M.inst? id with
      | none => simp [getInternalPointer, hinst] at hnext
      | some I =>
          obtain ⟨hI, rfl⟩ := Module.inst?_eq_some_iff.mp hinst
          exact ⟨I, hI, ty, rfl⟩
  | _ => simp [getInternalPointer] at hnext

end Kinds

/-- An `alloca`, or what `getelementptr`s and casts of pointers make of one. -/
inductive OnStack (M : Module) : Value → Prop where
  | alloca {I : Inst} {ty : Ty} {allocated : Ty} {count : Value} :
      I ∈ M.insts → I.op = .alloca allocated count → OnStack M (.inst I.id ty)
  | getelementptr {I : Inst} {ty : Ty} {ptr : Value} {indices : List Value} :
      I ∈ M.insts → I.op = .getelementptr ptr indices → OnStack M ptr →
        OnStack M (.inst I.id ty)
  | bitcast {I : Inst} {ty : Ty} {src : Value} :
      I ∈ M.insts → I.op = .bitcast src → src.ty.isPtr = true → OnStack M src →
        OnStack M (.inst I.id ty)

theorem baseOf_alloca_iff {M : Module} {ptr : Value} :
    (∃ base, BaseOf M ptr base ∧ isAlloca M base = true) ↔ OnStack M ptr := by
  constructor
  · rintro ⟨base, hbase, halloca⟩
    induction hbase with
    | here _ =>
        obtain ⟨I, hI, ⟨ty, rfl⟩, allocated, count, hop⟩ := isAlloca_iff.mp halloca
        exact .alloca hI hop
    | step hnext _ ih =>
        obtain ⟨I, hI, ty, rfl⟩ := exists_of_getInternalPointer hnext
        rcases (getInternalPointer_inst hI).mp hnext with ⟨indices, hop⟩ | ⟨hop, hptr⟩
        · exact .getelementptr hI hop (ih halloca)
        · exact .bitcast hI hop hptr (ih halloca)
  · intro hstack
    induction hstack with
    | @alloca I ty allocated count hI hop =>
        have hnone : getInternalPointer M (.inst I.id ty) = none := by
          refine Option.eq_none_iff_forall_ne_some.mpr fun internal hnext => ?_
          simp [getInternalPointer_inst hI, hop] at hnext
        exact ⟨.inst I.id ty, .here hnone, (isAlloca_inst hI).mpr ⟨allocated, count, hop⟩⟩
    | getelementptr hI hop _ ih =>
        obtain ⟨base, hbase, halloca⟩ := ih
        exact ⟨base, .step ((getInternalPointer_inst hI).mpr (Or.inl ⟨_, hop⟩)) hbase, halloca⟩
    | bitcast hI hop hptr _ ih =>
        obtain ⟨base, hbase, halloca⟩ := ih
        exact ⟨base, .step ((getInternalPointer_inst hI).mpr (Or.inr ⟨hop, hptr⟩)) hbase, halloca⟩

/-- The exempt pointers: those to the stack, and direct results of the heap's functions. -/
theorem exempt_iff {M : Module} {ptr : Value} :
    Exempt M ptr ↔ OnStack M ptr ∨ ∃ I ∈ M.insts, (∃ ty, ptr = .inst I.id ty) ∧
      ∃ name args, I.op = .call (.function name) args ∧ (name = "malloc" ∨ name = "calloc") :=
  or_congr baseOf_alloca_iff isRedundant_iff

theorem Exempt.eq_inst {M : Module} {ptr : Value} (hexempt : Exempt M ptr) :
    ∃ id ty, ptr = .inst id ty := by
  rcases exempt_iff.mp hexempt with hstack | ⟨I, _, ⟨ty, rfl⟩, _⟩
  · cases hstack <;> exact ⟨_, _, rfl⟩
  · exact ⟨I.id, ty, rfl⟩

def Op.access : Op → Option (Value × ℕ)
  | .load ptr => some (ptr, texasGuardLoad)
  | .store _ ptr => some (ptr, texasGuardStore)
  | _ => none

theorem Op.access_mem_values {op : Op} {ptr : Value} {flags : ℕ}
    (haccess : op.access = some (ptr, flags)) : ptr ∈ op.values ∧ op.isPhi = false := by
  cases op <;> simp_all [Op.access, Op.values, Op.isPhi]

/-- The pass terminates on the walks it makes. -/
def Module.WalksEnd (M : Module) : Prop :=
  ∀ I ∈ M.insts, ∀ ptr flags, I.op.access = some (ptr, flags) → ∃ base, BaseOf M ptr base

theorem Module.WalksEnd.of_fuel {M : Module} (fuel : ℕ)
    (hfuel : (M.insts.all fun I =>
      (I.op.access.all fun access => (internalWalk M fuel access.1).isSome)) = true) :
    M.WalksEnd := by
  intro I hI ptr flags haccess
  have hsome := List.all_eq_true.mp hfuel I hI
  rw [haccess, Option.all_some, Option.isSome_iff_exists] at hsome
  obtain ⟨base, hbase⟩ := hsome
  exact ⟨base, internalWalk_sound hbase⟩

def NeedsGuard (M : Module) (I : Inst) (guard : Guard) : Prop :=
  ∃ ptr flags, I.op.access = some (ptr, flags) ∧ ¬Exempt M ptr ∧
    guard = ⟨I.id, ptr, flags⟩

/-! ## What is collected -/

theorem insertGuard_spec {M : Module} {fuel : ℕ} {toGuard toGuard' : GuardMap}
    {inst : InstId} {pointer : Value} {flags : ℕ}
    (hinsert : insertGuard M fuel toGuard inst pointer flags = some toGuard') :
    (Exempt M pointer ∧ toGuard' = toGuard) ∨
      (¬Exempt M pointer ∧ toGuard' = toGuard.insert inst ⟨inst, pointer, flags⟩) := by
  obtain ⟨baseptr, hwalk, rfl⟩ := Option.map_eq_some_iff.mp hinsert
  have hbase := internalWalk_sound hwalk
  by_cases halloca : isAlloca M baseptr = true
  · exact Or.inl ⟨Or.inl ⟨baseptr, hbase, halloca⟩, by simp [halloca]⟩
  · by_cases hredundant : isRedundant M pointer = true
    · exact Or.inl ⟨Or.inr hredundant, by simp [halloca, hredundant]⟩
    · refine Or.inr ⟨?_, by simp [halloca, hredundant]⟩
      rintro (⟨base, hbase', hbaseAlloca⟩ | hexempt)
      · exact halloca (hbase.unique hbase' ▸ hbaseAlloca)
      · exact hredundant hexempt

/-- The map holds the guards of these instructions and no others. -/
def GuardsExactly (M : Module) (insts : List Inst) (guards : GuardMap) : Prop :=
  ∀ id guard, guards.lookup id = some guard ↔
    ∃ I ∈ insts, I.id = id ∧ NeedsGuard M I guard

theorem guardsExactly_empty (M : Module) : GuardsExactly M [] ∅ := by
  intro id guard
  simp

theorem visitInst_eq (M : Module) (fuel : ℕ) (toGuard : GuardMap) (I : Inst) :
    visitInst M fuel toGuard I =
      match I.op.access with
      | some (ptr, flags) => insertGuard M fuel toGuard I.id ptr flags
      | none => some toGuard := by
  obtain ⟨id, ty, op⟩ := I
  cases op <;> rfl

theorem visitInst_exact {M : Module} {fuel : ℕ} {toGuard toGuard' : GuardMap}
    {done : List Inst} {I : Inst} (hdone : ∀ J ∈ done, J ∈ M.insts) (hI : I ∈ M.insts)
    (hexact : GuardsExactly M done toGuard)
    (hvisit : visitInst M fuel toGuard I = some toGuard') :
    GuardsExactly M (done ++ [I]) toGuard' := by
  have hskip : (∀ guard, ¬NeedsGuard M I guard) → toGuard' = toGuard →
      GuardsExactly M (done ++ [I]) toGuard' := by
    rintro hnone rfl id guard
    rw [hexact id guard]
    simp [or_and_right, exists_or, hnone]
  rw [visitInst_eq] at hvisit
  cases haccess : I.op.access with
  | none =>
      apply hskip
      · rintro guard ⟨ptr, flags, hsome, _⟩
        simp [haccess] at hsome
      · simpa [haccess] using hvisit.symm
  | some access =>
      obtain ⟨ptr, flags⟩ := access
      simp only [haccess] at hvisit
      rcases insertGuard_spec hvisit with ⟨hexempt, hsame⟩ | ⟨hneeds, rfl⟩
      · apply hskip _ hsame
        rintro guard ⟨ptr', flags', hsome, hnot, _⟩
        obtain ⟨rfl, rfl⟩ : ptr = ptr' ∧ flags = flags' := by simpa [haccess] using hsome
        exact hnot hexempt
      · have hguard : ∀ guard, NeedsGuard M I guard ↔ guard = ⟨I.id, ptr, flags⟩ := by
          intro guard
          simp [NeedsGuard, haccess, hneeds]
        intro id guard
        by_cases hid : id = I.id
        · subst id
          rw [AList.lookup_insert, Option.some.injEq, eq_comm, ← hguard]
          constructor
          · exact fun hguard => ⟨I, by simp, rfl, hguard⟩
          · rintro ⟨J, hJ, hid, hguard⟩
            have hJI : J ∈ M.insts := by
              rcases List.mem_append.mp hJ with hJ | hJ
              · exact hdone J hJ
              · exact (List.mem_singleton.mp hJ) ▸ hI
            exact M.eq_of_id_eq hJI hI hid ▸ hguard
        · rw [AList.lookup_insert_ne hid, hexact id guard]
          simp [or_and_right, exists_or, Ne.symm hid]

theorem collectGuards_exact {M : Module} {fuel : ℕ} {rest : List Inst} :
    ∀ {toGuard toGuard' : GuardMap} (done : List Inst),
      (∀ J ∈ done ++ rest, J ∈ M.insts) → GuardsExactly M done toGuard →
      collectGuards M fuel toGuard rest = some toGuard' →
      GuardsExactly M (done ++ rest) toGuard' := by
  induction rest with
  | nil =>
      intro toGuard toGuard' done _ hexact hcollect
      obtain rfl : toGuard = toGuard' := by simpa [collectGuards] using hcollect
      simpa using hexact
  | cons I rest ih =>
      intro toGuard toGuard' done hmem hexact hcollect
      obtain ⟨next, hvisit, hrest⟩ := Option.bind_eq_some_iff.mp hcollect
      have hnext : GuardsExactly M (done ++ [I]) next :=
        visitInst_exact (fun J hJ => hmem J (by simp [hJ])) (hmem I (by simp)) hexact hvisit
      have hfinal := ih (done ++ [I]) (by simpa using hmem) hnext hrest
      simpa using hfinal

theorem lookup_recordGuards {entries : List GuardEntry}
    (hkeys : (entries.map Sigma.fst).Nodup) (hflags : ∀ kv ∈ entries, kv.2.flags ≠ 0)
    (allGuards : GuardMap) (id : InstId) (guard : Guard) :
    (recordGuards allGuards entries).lookup id = some guard ↔
      ⟨id, guard⟩ ∈ entries ∨
        (id ∉ entries.map Sigma.fst ∧ allGuards.lookup id = some guard) := by
  induction entries generalizing allGuards with
  | nil => simp [recordGuards]
  | cons kv rest ih =>
      obtain ⟨key, value⟩ := kv
      obtain ⟨hkey, hrest⟩ := List.nodup_cons.mp hkeys
      obtain ⟨hvalue, hflags'⟩ := List.forall_mem_cons.mp hflags
      have hstep : recordGuards allGuards (⟨key, value⟩ :: rest) =
          recordGuards (allGuards.insert key value) rest := by
        simp [recordGuards, hvalue]
      rw [hstep, ih hrest hflags']
      by_cases hid : id = key
      · subst id
        have hnot : ∀ g, (⟨key, g⟩ : GuardEntry) ∉ rest := fun g hmem =>
          hkey (List.mem_map.mpr ⟨_, hmem, rfl⟩)
        simp only [AList.lookup_insert, Option.some.injEq, hnot, false_or, hkey,
          not_false_eq_true, true_and, List.mem_cons, List.map_cons, not_true_eq_false,
          false_and, or_false, Sigma.mk.injEq, heq_eq_eq]
        exact eq_comm
      · rw [AList.lookup_insert_ne hid]
        simp [hid]

theorem access_flags_ne_zero {op : Op} {ptr : Value} {flags : ℕ}
    (haccess : op.access = some (ptr, flags)) : flags ≠ 0 := by
  cases op <;> simp [Op.access, texasGuardLoad, texasGuardStore] at haccess <;> omega

theorem recordGuards_exact {M : Module} (order : IterationOrder) {done insts : List Inst}
    {allGuards toGuard : GuardMap} (hmem : ∀ J ∈ done ++ insts, J ∈ M.insts)
    (hall : GuardsExactly M done allGuards) (hto : GuardsExactly M insts toGuard) :
    GuardsExactly M (done ++ insts)
      (recordGuards allGuards (order.visit toGuard.entries)) := by
  have hperm := order.perm toGuard.entries
  have hlookup : ∀ kv : GuardEntry, kv ∈ order.visit toGuard.entries ↔
      toGuard.lookup kv.1 = some kv.2 := by
    intro kv
    rw [hperm.mem_iff, ← Option.mem_def, AList.mem_lookup_iff]
  have hkeys : ((order.visit toGuard.entries).map Sigma.fst).Nodup :=
    (hperm.map Sigma.fst).nodup_iff.mpr toGuard.nodupKeys
  have hflags : ∀ kv ∈ order.visit toGuard.entries, kv.2.flags ≠ 0 := by
    intro kv hkv
    obtain ⟨I, _, _, ptr, flags, haccess, _, hguard⟩ := (hto kv.1 kv.2).mp ((hlookup kv).mp hkv)
    rw [hguard]
    exact access_flags_ne_zero haccess
  intro id guard
  rw [lookup_recordGuards hkeys hflags, hlookup, hto id guard, hall id guard]
  constructor
  · rintro (⟨I, hI, hneeds⟩ | ⟨_, I, hI, hneeds⟩)
    · exact ⟨I, by simp [hI], hneeds⟩
    · exact ⟨I, by simp [hI], hneeds⟩
  · rintro ⟨I, hI, hid, hneeds⟩
    by_cases hkey : id ∈ (order.visit toGuard.entries).map Sigma.fst
    · obtain ⟨⟨key, value⟩, hkv, rfl⟩ := List.mem_map.mp hkey
      obtain ⟨J, hJ, hJid, _⟩ := (hto key value).mp ((hlookup ⟨key, value⟩).mp hkv)
      have hsame : I = J := M.eq_of_id_eq (hmem I hI) (hmem J (by simp [hJ]))
        (hid.trans hJid.symm)
      exact Or.inl ⟨J, hJ, hJid, hsame ▸ hneeds⟩
    · rcases List.mem_append.mp hI with hI | hI
      · exact Or.inr ⟨hkey, I, hI, hid, hneeds⟩
      · exact Or.inl ⟨I, hI, hid, hneeds⟩

theorem findGuards_exact {M : Module} {order : IterationOrder} {fuel : ℕ}
    {functions : List Function} :
    ∀ {allGuards allGuards' : GuardMap} (done : List Inst),
      (∀ J ∈ done ++ functions.flatMap Function.insts, J ∈ M.insts) →
      GuardsExactly M done allGuards →
      findGuards M order fuel allGuards functions = some allGuards' →
      GuardsExactly M (done ++ functions.flatMap Function.insts) allGuards' := by
  induction functions with
  | nil =>
      intro allGuards allGuards' done _ hexact hfind
      obtain rfl : allGuards = allGuards' := by simpa [findGuards] using hfind
      simpa using hexact
  | cons F rest ih =>
      intro allGuards allGuards' done hmem hexact hfind
      unfold findGuards at hfind
      split at hfind
      next hempty =>
        have hnone : F.insts = [] := by
          simp [Function.insts, List.isEmpty_iff.mp hempty]
        rw [List.flatMap_cons, hnone, List.nil_append] at hmem ⊢
        exact ih done hmem hexact hfind
      next =>
        obtain ⟨toGuard, hcollect, hrest⟩ := Option.bind_eq_some_iff.mp hfind
        rw [List.flatMap_cons, ← List.append_assoc] at hmem ⊢
        have hknown : ∀ J ∈ done ++ F.insts, J ∈ M.insts := fun J hJ =>
          hmem J (List.mem_append_left _ hJ)
        have hto : GuardsExactly M F.insts toGuard := by
          have hcollected := collectGuards_exact []
            (fun J hJ => hknown J (List.mem_append_right _ hJ)) (guardsExactly_empty M) hcollect
          rwa [List.nil_append] at hcollected
        have hrecorded := recordGuards_exact order hknown hexact hto
        exact ih (done ++ F.insts) hmem hrecorded hrest

theorem visitInst_walks {M : Module} {fuel : ℕ} {toGuard toGuard' : GuardMap} {I : Inst}
    (hvisit : visitInst M fuel toGuard I = some toGuard') {ptr : Value} {flags : ℕ}
    (haccess : I.op.access = some (ptr, flags)) : ∃ base, internalWalk M fuel ptr = some base := by
  rw [visitInst_eq, haccess] at hvisit
  obtain ⟨base, hwalk, _⟩ := Option.map_eq_some_iff.mp hvisit
  exact ⟨base, hwalk⟩

theorem collectGuards_walks {M : Module} {fuel : ℕ} {toGuard toGuard' : GuardMap}
    {insts : List Inst} (hcollect : collectGuards M fuel toGuard insts = some toGuard') :
    ∀ I ∈ insts, ∀ ptr flags, I.op.access = some (ptr, flags) →
      ∃ base, internalWalk M fuel ptr = some base := by
  induction insts generalizing toGuard with
  | nil => simp
  | cons I rest ih =>
      obtain ⟨next, hvisit, hrest⟩ := Option.bind_eq_some_iff.mp hcollect
      exact List.forall_mem_cons.mpr ⟨fun _ _ haccess => visitInst_walks hvisit haccess, ih hrest⟩

/-- A pass that gets through has ended each of its walks. -/
theorem findGuards_walks {M : Module} {order : IterationOrder} {fuel : ℕ}
    {allGuards allGuards' : GuardMap} {functions : List Function}
    (hfind : findGuards M order fuel allGuards functions = some allGuards') :
    ∀ I ∈ functions.flatMap Function.insts, ∀ ptr flags,
      I.op.access = some (ptr, flags) → ∃ base, internalWalk M fuel ptr = some base := by
  induction functions generalizing allGuards with
  | nil => simp
  | cons F rest ih =>
      rw [List.flatMap_cons, List.forall_mem_append]
      unfold findGuards at hfind
      split at hfind
      next hempty =>
        have hinsts : F.insts = [] := by simp [Function.insts, List.isEmpty_iff.mp hempty]
        exact ⟨by simp [hinsts], ih hfind⟩
      next =>
        obtain ⟨toGuard, hcollect, hrest⟩ := Option.bind_eq_some_iff.mp hfind
        exact ⟨collectGuards_walks hcollect, ih hrest⟩

theorem findGuards_ends {M : Module} {order : IterationOrder} {fuel : ℕ}
    {allGuards allGuards' : GuardMap} {functions : List Function}
    (hfind : findGuards M order fuel allGuards functions = some allGuards') :
    ∀ I ∈ functions.flatMap Function.insts, ∀ ptr flags,
      I.op.access = some (ptr, flags) → ∃ base, BaseOf M ptr base := by
  intro I hI ptr flags haccess
  obtain ⟨base, hwalk⟩ := findGuards_walks hfind I hI ptr flags haccess
  exact ⟨base, internalWalk_sound hwalk⟩

theorem visitInst_total {M : Module} {I : Inst}
    (hends : ∀ ptr flags, I.op.access = some (ptr, flags) → ∃ base, BaseOf M ptr base) :
    ∃ bound, ∀ fuel, bound ≤ fuel → ∀ toGuard,
      ∃ toGuard', visitInst M fuel toGuard I = some toGuard' := by
  cases haccess : I.op.access with
  | none => exact ⟨0, fun fuel _ toGuard => ⟨toGuard, by rw [visitInst_eq, haccess]⟩⟩
  | some access =>
      obtain ⟨ptr, flags⟩ := access
      obtain ⟨base, hbase⟩ := hends ptr flags haccess
      obtain ⟨bound, hbound⟩ := hbase.internalWalk_eq
      refine ⟨bound, fun fuel hfuel toGuard => ?_⟩
      simp [visitInst_eq, haccess, insertGuard, hbound fuel hfuel]

theorem collectGuards_total {M : Module} {insts : List Inst}
    (hends : ∀ I ∈ insts, ∀ ptr flags, I.op.access = some (ptr, flags) →
      ∃ base, BaseOf M ptr base) :
    ∃ bound, ∀ fuel, bound ≤ fuel → ∀ toGuard,
      ∃ toGuard', collectGuards M fuel toGuard insts = some toGuard' := by
  induction insts with
  | nil => exact ⟨0, fun fuel _ toGuard => ⟨toGuard, rfl⟩⟩
  | cons I rest ih =>
      obtain ⟨hI, hrest⟩ := List.forall_mem_cons.mp hends
      obtain ⟨first, hfirst⟩ := visitInst_total hI
      obtain ⟨second, hsecond⟩ := ih hrest
      refine ⟨max first second, fun fuel hfuel toGuard => ?_⟩
      obtain ⟨next, hnext⟩ := hfirst fuel (by omega) toGuard
      obtain ⟨last, hlast⟩ := hsecond fuel (by omega) next
      exact ⟨last, by simp [collectGuards, hnext, hlast]⟩

theorem findGuards_total {M : Module} (order : IterationOrder)
    {functions : List Function}
    (hends : ∀ I ∈ functions.flatMap Function.insts, ∀ ptr flags,
      I.op.access = some (ptr, flags) → ∃ base, BaseOf M ptr base) :
    ∃ bound, ∀ fuel, bound ≤ fuel → ∀ allGuards,
      ∃ allGuards', findGuards M order fuel allGuards functions = some allGuards' := by
  induction functions with
  | nil => exact ⟨0, fun fuel _ allGuards => ⟨allGuards, rfl⟩⟩
  | cons F rest ih =>
      rw [List.flatMap_cons] at hends
      obtain ⟨first, hfirst⟩ := collectGuards_total
        fun I hI => hends I (List.mem_append_left _ hI)
      obtain ⟨second, hsecond⟩ := ih fun I hI => hends I (List.mem_append_right _ hI)
      refine ⟨max first second, fun fuel hfuel allGuards => ?_⟩
      unfold findGuards
      split
      · exact hsecond fuel (by omega) allGuards
      · obtain ⟨toGuard, hto⟩ := hfirst fuel (by omega) ∅
        obtain ⟨last, hlast⟩ := hsecond fuel (by omega)
          (recordGuards allGuards (order.visit toGuard.entries))
        exact ⟨last, by simp [hto, hlast]⟩

/-! ## More fuel changes nothing -/

section Fuel

variable {M : Module} {fuel fuel' : ℕ} (hle : fuel ≤ fuel')

include hle

theorem internalWalk_mono {v base : Value} (hwalk : internalWalk M fuel v = some base) :
    internalWalk M fuel' v = some base := by
  induction fuel generalizing v fuel' with
  | zero => simp [internalWalk] at hwalk
  | succ fuel ih =>
      obtain ⟨more, rfl⟩ : ∃ more, fuel' = more + 1 := ⟨fuel' - 1, by omega⟩
      unfold internalWalk at hwalk ⊢
      cases hnext : getInternalPointer M v with
      | none => simpa [hnext] using hwalk
      | some internal =>
          simp only [hnext] at hwalk ⊢
          exact ih (by omega) hwalk

theorem visitInst_mono {toGuard toGuard' : GuardMap} {I : Inst}
    (hvisit : visitInst M fuel toGuard I = some toGuard') :
    visitInst M fuel' toGuard I = some toGuard' := by
  rw [visitInst_eq] at hvisit ⊢
  cases haccess : I.op.access with
  | none => simpa [haccess] using hvisit
  | some access =>
      simp only [haccess] at hvisit ⊢
      obtain ⟨base, hwalk, hguard⟩ := Option.map_eq_some_iff.mp hvisit
      exact Option.map_eq_some_iff.mpr ⟨base, internalWalk_mono hle hwalk, hguard⟩

theorem collectGuards_mono {toGuard toGuard' : GuardMap} {insts : List Inst}
    (hcollect : collectGuards M fuel toGuard insts = some toGuard') :
    collectGuards M fuel' toGuard insts = some toGuard' := by
  induction insts generalizing toGuard with
  | nil => exact hcollect
  | cons I rest ih =>
      obtain ⟨next, hvisit, hrest⟩ := Option.bind_eq_some_iff.mp hcollect
      exact Option.bind_eq_some_iff.mpr ⟨next, visitInst_mono hle hvisit, ih hrest⟩

theorem findGuards_mono {order : IterationOrder} {allGuards allGuards' : GuardMap}
    {functions : List Function}
    (hfind : findGuards M order fuel allGuards functions = some allGuards') :
    findGuards M order fuel' allGuards functions = some allGuards' := by
  induction functions generalizing allGuards with
  | nil => exact hfind
  | cons F rest ih =>
      unfold findGuards at hfind ⊢
      split at hfind
      next hempty =>
        rw [if_pos hempty]
        exact ih hfind
      next hbody =>
        rw [if_neg hbody]
        obtain ⟨toGuard, hcollect, hrest⟩ := Option.bind_eq_some_iff.mp hfind
        exact Option.bind_eq_some_iff.mpr ⟨toGuard, collectGuards_mono hle hcollect, ih hrest⟩

theorem runOnModule_mono {toGuardOrder allGuardsOrder : IterationOrder} {M' : Module}
    (hrun : runOnModule toGuardOrder allGuardsOrder fuel M = some M') :
    runOnModule toGuardOrder allGuardsOrder fuel' M = some M' := by
  obtain ⟨allGuards, hfind, hguards⟩ := Option.map_eq_some_iff.mp hrun
  exact Option.map_eq_some_iff.mpr ⟨allGuards, findGuards_mono hle hfind, hguards⟩

end Fuel

end Carat

import Carat.Weaving
import Mathlib.Data.Finset.Lattice.Fold

/-!
# The compiler's modules

Functions, basic blocks and instructions as the pass sees them.  An instruction
is an object with an identity, and an operand that is an instruction is its
identity together with its type, the way the printed form shows it.  A module
carries the fact that its instructions are different objects; a new instruction
gets an identity above everything the module mentions.
-/

namespace Carat

open Weaving

/-- Types; pointers are in address space 0. -/
inductive Ty where
  | void
  | int (width : ℕ)
  | ptr (elem : Ty)
  | other (code : ℕ)
  deriving DecidableEq, Repr

def Ty.isPtr : Ty → Bool
  | .ptr _ => true
  | _ => false

inductive Const where
  | int (width value : ℕ)
  | null (ty : Ty)
  | global (name : String) (ty : Ty)
  | bitcast (value : Const) (ty : Ty)
  | other (code : ℕ) (ty : Ty)
  deriving DecidableEq, Repr

def Const.ty : Const → Ty
  | .int width _ => .int width
  | .null ty => ty
  | .global _ ty => ty
  | .bitcast _ ty => ty
  | .other _ ty => ty

abbrev InstId := ℕ

inductive Value where
  | inst (id : InstId) (ty : Ty)
  | arg (index : ℕ) (ty : Ty)
  | const (value : Const)
  deriving DecidableEq, Repr

def Value.ty : Value → Ty
  | .inst _ ty => ty
  | .arg _ ty => ty
  | .const value => value.ty

inductive Callee where
  -- A direct call.
  | function (name : String)
  | value (v : Value)
  deriving DecidableEq, Repr

abbrev BlockId := ℕ

/-- What an instruction does.  `other` stands for every instruction that goes on
to the next one without a control transfer and is not named here; `branch` for
`br`, `switch` and `indirectbr`. -/
inductive Op where
  | alloca (allocated : Ty) (count : Value)
  | load (ptr : Value)
  | store (val ptr : Value)
  | getelementptr (ptr : Value) (indices : List Value)
  | bitcast (src : Value)
  | call (callee : Callee) (args : List Value)
  | atomicrmw (opcode : ℕ) (ptr val : Value)
  | cmpxchg (ptr cmp new : Value)
  | phi (incoming : List (BlockId × Value))
  | other (opcode : ℕ) (operands : List Value)
  | branch (opcode : ℕ) (operands : List Value) (succs : List BlockId)
  | invoke (callee : Callee) (args : List Value) (normal unwind : BlockId)
  | ret (val : Option Value)
  | resume (val : Value)
  | unreachable
  deriving DecidableEq, Repr

def Callee.values : Callee → List Value
  | .function _ => []
  | .value v => [v]

def Op.values : Op → List Value
  | .alloca _ count => [count]
  | .load ptr => [ptr]
  | .store val ptr => [val, ptr]
  | .getelementptr ptr indices => ptr :: indices
  | .bitcast src => [src]
  | .call callee args => callee.values ++ args
  | .atomicrmw _ ptr val => [ptr, val]
  | .cmpxchg ptr cmp new => [ptr, cmp, new]
  | .phi incoming => incoming.map Prod.snd
  | .other _ operands => operands
  | .branch _ operands _ => operands
  | .invoke callee args _ _ => callee.values ++ args
  | .ret val => val.toList
  | .resume val => [val]
  | .unreachable => []

def Op.isPhi : Op → Bool
  | .phi _ => true
  | _ => false

structure Inst where
  id : InstId
  ty : Ty
  op : Op
  deriving DecidableEq, Repr

def Inst.isPhi (I : Inst) : Bool := I.op.isPhi

structure Block where
  label : BlockId
  insts : List Inst
  deriving DecidableEq, Repr

/-- A function; without blocks it is a declaration. -/
structure Function where
  name : String
  blocks : List Block
  deriving DecidableEq, Repr

def Function.insts (F : Function) : List Inst := F.blocks.flatMap Block.insts

def Function.mapInsts (change : List Inst → List Inst) (F : Function) : Function where
  name := F.name
  blocks := F.blocks.map fun B => { B with insts := change B.insts }

/-- A module; its instructions are pairwise different objects. -/
structure Module where
  functions : List Function
  distinct : ((functions.flatMap Function.insts).map Inst.id).Nodup
  deriving DecidableEq

def Module.insts (M : Module) : List Inst := M.functions.flatMap Function.insts

/-! ## Identities -/

def Value.id? : Value → Option InstId
  | .inst id _ => some id
  | _ => none

/-- The identities an instruction mentions, its own included. -/
def Inst.mentions (I : Inst) : List InstId := I.id :: I.op.values.filterMap Value.id?

def Module.freshId (M : Module) : InstId :=
  (M.insts.flatMap Inst.mentions).foldr (fun id bound => max (id + 1) bound) 0

theorem foldr_bound_le_iff {ids : List InstId} {bound : InstId} :
    ids.foldr (fun id bound => max (id + 1) bound) 0 ≤ bound ↔ ∀ id ∈ ids, id < bound := by
  induction ids with
  | nil => simp
  | cons id rest ih =>
      simp only [List.foldr_cons, max_le_iff, ih, List.forall_mem_cons]
      rfl

theorem Module.freshId_le_iff {M : Module} {bound : InstId} :
    M.freshId ≤ bound ↔ ∀ I ∈ M.insts, ∀ id ∈ I.mentions, id < bound := by
  unfold freshId
  rw [foldr_bound_le_iff]
  simp only [List.mem_flatMap, forall_exists_index, and_imp]
  exact forall_comm.trans (forall_congr' fun _ => forall_comm)

theorem Module.mentions_lt_freshId {M : Module} {I : Inst} (hI : I ∈ M.insts)
    {id : InstId} (hid : id ∈ I.mentions) : id < M.freshId :=
  Module.freshId_le_iff.mp le_rfl I hI id hid

theorem Module.id_lt_freshId {M : Module} {I : Inst} (hI : I ∈ M.insts) :
    I.id < M.freshId :=
  M.mentions_lt_freshId hI List.mem_cons_self

theorem Module.value_lt_freshId {M : Module} {I : Inst} (hI : I ∈ M.insts)
    {id : InstId} {ty : Ty} (hv : Value.inst id ty ∈ I.op.values) : id < M.freshId := by
  apply M.mentions_lt_freshId hI
  exact List.mem_cons_of_mem _ (List.mem_filterMap.mpr ⟨_, hv, rfl⟩)

theorem Module.freshId_mono {M M' : Module} (hsub : ∀ I ∈ M.insts, I ∈ M'.insts) :
    M.freshId ≤ M'.freshId :=
  Module.freshId_le_iff.mpr fun I hI _ hid => M'.mentions_lt_freshId (hsub I hI) hid

theorem Module.eq_of_id_eq {M : Module} {I J : Inst} (hI : I ∈ M.insts)
    (hJ : J ∈ M.insts) (hid : I.id = J.id) : I = J :=
  List.inj_on_of_nodup_map M.distinct hI hJ hid

/-! ## Changing a module -/

theorem Function.insts_mapInsts_insertBefore (target : Inst → Bool) (new : Inst)
    (F : Function) :
    (F.mapInsts (insertBefore target new)).insts = insertBefore target new F.insts := by
  obtain ⟨name, blocks⟩ := F
  simp only [insts, mapInsts]
  induction blocks with
  | nil => rfl
  | cons B rest ih =>
      simp only [List.map_cons, List.flatMap_cons, insertBefore_append, ih]

theorem flatMap_insts_insertBefore (target : Inst → Bool) (new : Inst)
    (functions : List Function) :
    (functions.map (Function.mapInsts (insertBefore target new))).flatMap
        Function.insts =
      insertBefore target new (functions.flatMap Function.insts) := by
  induction functions with
  | nil => rfl
  | cons F rest ih =>
      rw [List.map_cons, List.flatMap_cons, List.flatMap_cons, insertBefore_append,
        Function.insts_mapInsts_insertBefore, ih]

theorem map_id_insertBefore (target : InstId) (new : Inst) (insts : List Inst) :
    (insertBefore (fun I => I.id == target) new insts).map Inst.id =
      insertBefore (fun id => id == target) new.id (insts.map Inst.id) := by
  induction insts with
  | nil => rfl
  | cons I rest ih =>
      simp only [insertBefore_cons, List.map_append, ih, List.map_cons]
      split <;> rfl

/-- A new instruction in front of an existing one, as an `IRBuilder` makes it. -/
def Module.insertBefore (M : Module) (target : InstId) (ty : Ty) (op : Op) : Module where
  functions :=
    M.functions.map (Function.mapInsts
      (Weaving.insertBefore (fun I => I.id == target) ⟨M.freshId, ty, op⟩))
  distinct := by
    rw [flatMap_insts_insertBefore, map_id_insertBefore]
    apply nodup_insertBefore M.distinct
    intro hmem
    obtain ⟨I, hI, hid⟩ := List.mem_map.mp hmem
    exact absurd hid (M.id_lt_freshId hI).ne

/-- `Module::getOrInsertFunction`. -/
def Module.getOrInsertFunction (M : Module) (name : String) : Module where
  functions :=
    if M.functions.any (fun F => F.name == name) then M.functions
    else M.functions ++ [⟨name, []⟩]
  distinct := by
    split
    · exact M.distinct
    · simpa [Function.insts] using M.distinct

@[simp] theorem Module.insts_getOrInsertFunction (M : Module) (name : String) :
    (M.getOrInsertFunction name).insts = M.insts := by
  simp only [insts, getOrInsertFunction]
  split
  · rfl
  · simp [Function.insts]

def Module.inst? (M : Module) (id : InstId) : Option Inst :=
  M.insts.find? fun I => I.id == id

theorem Module.inst?_of_mem {M : Module} {I : Inst} (hI : I ∈ M.insts) :
    M.inst? I.id = some I := by
  cases hfind : M.inst? I.id with
  | none =>
      have hnone := List.find?_eq_none.mp hfind I hI
      simp at hnone
  | some J =>
      have hid : J.id = I.id := by simpa using List.find?_some hfind
      rw [M.eq_of_id_eq (List.mem_of_find?_eq_some hfind) hI hid]

theorem Module.inst?_eq_some_iff {M : Module} {id : InstId} {I : Inst} :
    M.inst? id = some I ↔ I ∈ M.insts ∧ I.id = id := by
  constructor
  · intro hfind
    exact ⟨List.mem_of_find?_eq_some hfind, by simpa using List.find?_some hfind⟩
  · rintro ⟨hI, rfl⟩
    exact M.inst?_of_mem hI

end Carat

import Carat.Dominance
import Carat.GuardInsertion
import Carat.Reachability

/-!
# Base-pointer walks in SSA form

The pass goes from a pointer to the operand of the `getelementptr` or `bitcast`
that made it, as long as there is one.  Nothing in the loop gets smaller: it is
the single-assignment form of the function that brings it to an end.  In a block
that can be reached from the entry, an operand is defined before its use on every
way, and going back to what comes before cannot go on for ever.

A block that cannot be reached carries no such promise.  There an operand chain
may be circular, the verifier accepts it, and the pass visits the block like any
other.
-/

namespace Carat

open Relation

/-! ## Functions in SSA form -/

/-- Where control may go after the instruction, within the function. -/
def Op.succs : Op → List BlockId
  | .branch _ _ succs => succs
  | .invoke _ _ normal unwind => [normal, unwind]
  | _ => []

/-- The successors of the block's terminator, its last instruction. -/
def Block.succs (B : Block) : List BlockId :=
  match B.insts.getLast? with
  | some I => I.op.succs
  | none => []

namespace Function

/-- The label of the first block; a declaration has none, and no uses either. -/
def entry (F : Function) : BlockId := (F.blocks.map Block.label).headD 0

def Flows (F : Function) (a b : BlockId) : Prop :=
  ∃ B ∈ F.blocks, B.label = a ∧ b ∈ B.succs

def Reachable (F : Function) (b : BlockId) : Prop :=
  Dominance.Reachable F.Flows F.entry b

/-- `I` is instruction number `p.2` of the block labelled `p.1`. -/
def At (F : Function) (p : BlockId × ℕ) (I : Inst) : Prop :=
  ∃ B ∈ F.blocks, B.label = p.1 ∧ B.insts[p.2]? = some I

/-- The value is available at a place: an instruction has to come before it. -/
def DefinedBefore (F : Function) (p : BlockId × ℕ) : Value → Prop
  | .inst id _ => ∃ q D, F.At q D ∧ D.id = id ∧ Dominance.Before F.Flows F.entry q p
  | _ => True

/-- The value is available where the block ends. -/
def DefinedBy (F : Function) (b : BlockId) : Value → Prop
  | .inst id _ => ∃ q D, F.At q D ∧ D.id = id ∧ Dominance.Dominates F.Flows F.entry q.1 b
  | _ => True

/-- What the verifier demands of definitions and uses.  It demands a little more of
the result of an `invoke`, which is available on the normal edge only. -/
structure SsaForm (F : Function) : Prop where
  labels : (F.blocks.map Block.label).Nodup
  operands : ∀ I ∈ F.insts, ∀ id ∈ I.mentions, ∃ D ∈ F.insts, D.id = id
  uses : ∀ p I, F.At p I → F.Reachable p.1 → I.isPhi = false →
    ∀ v ∈ I.op.values, F.DefinedBefore p v
  phis : ∀ p I incoming, F.At p I → I.op = .phi incoming →
    ∀ b v, (b, v) ∈ incoming → F.Reachable b → F.DefinedBy b v

theorem At.mem_insts {F : Function} {p : BlockId × ℕ} {I : Inst} (hat : F.At p I) :
    I ∈ F.insts := by
  obtain ⟨B, hB, _, hI⟩ := hat
  exact List.mem_flatMap.mpr ⟨B, hB, List.mem_of_getElem? hI⟩

theorem At.op_ne_phi {F : Function} {p : BlockId × ℕ} {I : Inst} (hat : F.At p I)
    (hnone : ∀ I ∈ F.insts, I.isPhi = false) (incoming : List (BlockId × Value)) :
    I.op ≠ .phi incoming := by
  intro hop
  have hphi := hnone I hat.mem_insts
  simp [Inst.isPhi, hop, Op.isPhi] at hphi

end Function

theorem Module.mem_insts_of_function {M : Module} {F : Function} (hF : F ∈ M.functions)
    {I : Inst} (hI : I ∈ F.insts) : I ∈ M.insts :=
  List.mem_flatMap.mpr ⟨F, hF, hI⟩

/-! ## The chain that the walk follows -/

/-- One step of the walk. -/
def Internal (M : Module) (v internal : Value) : Prop := getInternalPointer M v = some internal

/-- The pointer's chain of `getelementptr` and `bitcast` operands comes round to
something it has passed. -/
def Circular (M : Module) (ptr : Value) : Prop :=
  ∃ v, ReflTransGen (Internal M) ptr v ∧ TransGen (Internal M) v v

/-- Everything a step of the walk can be. -/
theorem Internal.cases {M : Module} {v internal : Value} (hinternal : Internal M v internal) :
    ∃ D ∈ M.insts, (∃ ty, v = .inst D.id ty) ∧ D.isPhi = false ∧ internal ∈ D.op.values := by
  unfold Internal getInternalPointer at hinternal
  cases v with
  | arg index ty => simp at hinternal
  | const value => simp at hinternal
  | inst id ty =>
      cases hinst : M.inst? id with
      | none => simp [hinst] at hinternal
      | some D =>
          have hD : D ∈ M.insts := List.mem_of_find?_eq_some hinst
          have hid : D.id = id := by simpa using List.find?_some hinst
          obtain ⟨id', ty', op⟩ := D
          refine ⟨_, hD, ⟨ty, by rw [← hid]⟩, ?_⟩
          cases op with
          | getelementptr ptr indices =>
              simp only [hinst, Option.some.injEq] at hinternal
              exact ⟨rfl, by simp [Op.values, hinternal]⟩
          | bitcast src =>
              simp only [hinst, Option.ite_none_right_eq_some, Option.some.injEq] at hinternal
              exact ⟨rfl, by simp [Op.values, hinternal.2]⟩
          | _ => simp [hinst] at hinternal

theorem finite_chain (M : Module) (ptr : Value) :
    {v | ReflTransGen (Internal M) ptr v}.Finite := by
  refine (List.finite_toSet (ptr :: M.insts.flatMap fun I => I.op.values)).subset ?_
  intro v hreach
  cases hreach with
  | refl => exact List.mem_cons_self
  | tail _ hstep =>
      obtain ⟨D, hD, _, _, hv⟩ := hstep.cases
      exact List.mem_cons_of_mem _ (List.mem_flatMap.mpr ⟨D, hD, hv⟩)

theorem exists_baseOf_iff_acc {M : Module} {v : Value} :
    (∃ base, BaseOf M v base) ↔ Acc (fun internal v => Internal M v internal) v := by
  constructor
  · rintro ⟨base, hbase⟩
    induction hbase with
    | here hnext =>
        refine Acc.intro _ fun internal hinternal => ?_
        simp [Internal, hnext] at hinternal
    | step hnext _ ih =>
        refine Acc.intro _ fun internal hinternal => ?_
        obtain rfl := Option.some.inj (hnext.symm.trans hinternal)
        exact ih
  · intro hacc
    induction hacc with
    | intro v _ ih =>
        cases hnext : getInternalPointer M v with
        | none => exact ⟨v, .here hnext⟩
        | some internal =>
            obtain ⟨base, hbase⟩ := ih internal hnext
            exact ⟨base, .step hnext hbase⟩

/-- The walk comes to a base exactly when it does not go round. -/
theorem exists_baseOf_iff_not_circular {M : Module} {ptr : Value} :
    (∃ base, BaseOf M ptr base) ↔ ¬Circular M ptr := by
  rw [exists_baseOf_iff_acc]
  constructor
  · rintro hacc ⟨v, hreach, hcycle⟩
    exact Reachability.not_cycle_of_acc hacc hreach hcycle
  · intro hnot
    apply Reachability.acc_of_no_cycle (finite_chain M ptr)
    exact fun v hreach hcycle => hnot ⟨v, hreach, hcycle⟩

theorem exists_internalWalk_iff {M : Module} {ptr : Value} :
    (∃ steps base, internalWalk M steps ptr = some base) ↔ ∃ base, BaseOf M ptr base := by
  constructor
  · rintro ⟨steps, base, hwalk⟩
    exact ⟨base, internalWalk_sound hwalk⟩
  · rintro ⟨base, hbase⟩
    obtain ⟨bound, hbound⟩ := hbase.internalWalk_eq
    exact ⟨bound, base, hbound bound le_rfl⟩

/-! ## Reachable blocks -/

section Reachable

variable {M : Module} {F : Function} (hF : F ∈ M.functions) (hssa : F.SsaForm)

include hF hssa

/-- One step of the walk leads to something that is defined earlier still. -/
theorem Internal.earlier {p : BlockId × ℕ} (hreach : F.Reachable p.1) {v internal : Value}
    (hdefined : F.DefinedBefore p v) (hinternal : Internal M v internal) :
    ∃ q, Dominance.Before F.Flows F.entry q p ∧ F.DefinedBefore q internal := by
  obtain ⟨D, hD, ⟨ty, rfl⟩, hphi, hoperand⟩ := hinternal.cases
  obtain ⟨q, D', hat, hid, hbefore⟩ := hdefined
  have hD' : D' ∈ M.insts := M.mem_insts_of_function hF hat.mem_insts
  obtain rfl := M.eq_of_id_eq hD' hD hid
  exact ⟨q, hbefore, hssa.uses q D' hat (hbefore.reachable hreach) hphi internal hoperand⟩

theorem exists_baseOf_of_definedBefore {p : BlockId × ℕ} (hreach : F.Reachable p.1) {v : Value}
    (hdefined : F.DefinedBefore p v) : ∃ base, BaseOf M v base := by
  rw [exists_baseOf_iff_acc]
  have hacc : Acc (Dominance.Before F.Flows F.entry) p := Dominance.acc_before hreach p.2
  induction hacc generalizing v with
  | intro p _ ih =>
      refine Acc.intro v fun internal hinternal => ?_
      obtain ⟨q, hbefore, hearlier⟩ := Internal.earlier hF hssa hreach hdefined hinternal
      exact ih q hbefore (hbefore.reachable hreach) hearlier

end Reachable

theorem Function.SsaForm.bases_iff {M : Module} {F : Function} (hssa : F.SsaForm)
    (hF : F ∈ M.functions) :
    (∀ I ∈ F.insts, ∀ ptr flags, I.op.access = some (ptr, flags) → ∃ base, BaseOf M ptr base) ↔
    ∀ B ∈ F.blocks, ¬F.Reachable B.label → ∀ I ∈ B.insts, ∀ ptr flags,
      I.op.access = some (ptr, flags) → ¬Circular M ptr := by
  constructor
  · intro hends B hB _ I hI ptr flags haccess
    have hmem : I ∈ F.insts := List.mem_flatMap.mpr ⟨B, hB, hI⟩
    exact exists_baseOf_iff_not_circular.mp (hends I hmem ptr flags haccess)
  · intro hdead I hI ptr flags haccess
    obtain ⟨B, hB, hIB⟩ := List.mem_flatMap.mp hI
    by_cases hreach : F.Reachable B.label
    · obtain ⟨i, hi⟩ := List.getElem?_of_mem hIB
      obtain ⟨hoperand, hphi⟩ := Op.access_mem_values haccess
      have hdefined : F.DefinedBefore (B.label, i) ptr :=
        hssa.uses (B.label, i) I ⟨B, hB, rfl, hi⟩ hreach hphi ptr hoperand
      exact exists_baseOf_of_definedBefore hF hssa hreach hdefined
    · exact exists_baseOf_iff_not_circular.mpr (hdead B hB hreach I hIB ptr flags haccess)

/-- The pass gets through a module in SSA form exactly when no load or store of an
unreachable block has a circular operand chain. -/
theorem runOnModule_returns_iff {M : Module} (hssa : ∀ F ∈ M.functions, F.SsaForm)
    (toGuardOrder allGuardsOrder : IterationOrder) :
    (∃ fuel M', runOnModule toGuardOrder allGuardsOrder fuel M = some M') ↔
    ∀ F ∈ M.functions, ∀ B ∈ F.blocks, ¬F.Reachable B.label → ∀ I ∈ B.insts, ∀ ptr flags,
      I.op.access = some (ptr, flags) → ¬Circular M ptr := by
  have hwalks : M.WalksEnd ↔ ∀ F ∈ M.functions, ∀ I ∈ F.insts, ∀ ptr flags,
      I.op.access = some (ptr, flags) → ∃ base, BaseOf M ptr base := by
    simp only [Module.WalksEnd, Module.insts, List.mem_flatMap, forall_exists_index, and_imp]
    exact forall_comm.trans (forall_congr' fun _ => forall_comm)
  calc
    (∃ fuel M', runOnModule toGuardOrder allGuardsOrder fuel M = some M') ↔ M.WalksEnd := by
      constructor
      · rintro ⟨fuel, M', hrun⟩
        exact walksEnd_of_runOnModule hrun
      · intro hends
        obtain ⟨bound, hbound⟩ := runOnModule_total toGuardOrder allGuardsOrder hends
        exact ⟨bound, hbound bound le_rfl⟩
    _ ↔ _ := hwalks.trans (forall₂_congr fun F hF => (hssa F hF).bases_iff hF)

/-- In a function in SSA form the walks from all loads and stores end exactly when
no load or store of an unreachable block has a circular operand chain. -/
theorem Function.SsaForm.walksEnd_iff {M : Module} {F : Function} (hssa : F.SsaForm)
    (hF : F ∈ M.functions) :
    (∀ I ∈ F.insts, ∀ ptr flags, I.op.access = some (ptr, flags) →
      ∃ steps base, internalWalk M steps ptr = some base) ↔
    ∀ B ∈ F.blocks, ¬F.Reachable B.label → ∀ I ∈ B.insts, ∀ ptr flags,
      I.op.access = some (ptr, flags) → ¬Circular M ptr := by
  simp only [exists_internalWalk_iff]
  exact hssa.bases_iff hF

def bytePtr : Ty := .ptr (.int 8)

/-- A slot that one block steps into and another, unreachable, reads through. -/
def slotFunction : Function where
  name := "slot"
  blocks := [
    ⟨0, [⟨0, bytePtr, .alloca (.int 8) (.const (.int 32 4))⟩, ⟨1, .void, .branch 0 [] [1]⟩]⟩,
    ⟨1, [⟨2, bytePtr, .getelementptr (.inst 0 bytePtr) [.const (.int 64 1)]⟩,
      ⟨3, .void, .store (.const (.int 8 0)) (.inst 2 bytePtr)⟩, ⟨4, .void, .ret none⟩]⟩,
    ⟨2, [⟨5, bytePtr, .getelementptr (.inst 2 bytePtr) [.const (.int 64 1)]⟩,
      ⟨6, .int 8, .load (.inst 5 bytePtr)⟩, ⟨7, .void, .branch 0 [] [2]⟩]⟩]

def slotModule : Module := ⟨[slotFunction], by decide⟩

theorem slotFunction_reachable {b : BlockId} (hreach : slotFunction.Reachable b) :
    b = 0 ∨ b = 1 := by
  apply hreach.mem_of_closed (fun b => b = 0 ∨ b = 1) (Or.inl rfl)
  rintro a b ha ⟨B, hB, rfl, hb⟩
  simp only [slotFunction, List.mem_cons, List.not_mem_nil, or_false] at hB
  rcases hB with rfl | rfl | rfl <;> simp_all [Block.succs, Op.succs]

theorem slotFunction_ssaForm : slotFunction.SsaForm where
  labels := by decide
  operands := by decide
  uses := by
    have hslot : slotFunction.At (0, 0) ⟨0, bytePtr, .alloca (.int 8) (.const (.int 32 4))⟩ :=
      ⟨_, List.mem_cons_self, rfl, rfl⟩
    have hstep : slotFunction.At (1, 0)
        ⟨2, bytePtr, .getelementptr (.inst 0 bytePtr) [.const (.int 64 1)]⟩ :=
      ⟨_, List.mem_cons_of_mem _ List.mem_cons_self, rfl, rfl⟩
    rintro ⟨b, i⟩ I ⟨B, hB, rfl, hI⟩ hreach _ v hv
    simp only [slotFunction, List.mem_cons, List.not_mem_nil, or_false] at hB
    rcases hB with rfl | rfl | rfl
    · rcases i with _ | _ | i <;> simp at hI <;> subst hI <;>
        simp_all [Op.values, Function.DefinedBefore]
    · rcases i with _ | _ | _ | i <;> simp at hI <;> subst hI <;>
        simp only [Op.values, List.mem_cons, List.not_mem_nil, or_false] at hv
      · rcases hv with rfl | rfl
        · exact ⟨(0, 0), _, hslot, rfl, Or.inr ⟨by decide, Dominance.entry_dominates 1⟩⟩
        · trivial
      · rcases hv with rfl | rfl
        · trivial
        · exact ⟨(1, 0), _, hstep, rfl, Or.inl ⟨rfl, Nat.zero_lt_one⟩⟩
      · simp at hv
    · exact absurd (slotFunction_reachable hreach) (by simp)
  phis p I incoming hat hop := absurd hop (hat.op_ne_phi (by decide) incoming)

theorem slotFunction_walksEnd :
    (∃ steps base, internalWalk slotModule steps (.inst 2 bytePtr) = some base) ∧
      ∃ steps base, internalWalk slotModule steps (.inst 5 bytePtr) = some base := by
  have hwalks : slotModule.WalksEnd := .of_fuel 4 (by decide)
  have hF : slotFunction ∈ slotModule.functions := List.mem_cons_self
  have hends := (slotFunction_ssaForm.walksEnd_iff hF).mpr
    fun B hB _ I hI ptr flags haccess => exists_baseOf_iff_not_circular.mp
      (hwalks I (slotModule.mem_insts_of_function hF (List.mem_flatMap.mpr ⟨B, hB, hI⟩))
        ptr flags haccess)
  exact ⟨hends ⟨3, .void, .store (.const (.int 8 0)) (.inst 2 bytePtr)⟩ (by decide) _ _ rfl,
    hends ⟨6, .int 8, .load (.inst 5 bytePtr)⟩ (by decide) _ _ rfl⟩

/-! ## A block that the entry does not reach -/

/-- `dead: %1 = getelementptr i8, i8* %1, i64 1; load i8, i8* %1; br label %dead`,
after an entry that returns. -/
def deadLoopFunction : Function where
  name := "dead_loop"
  blocks := [
    ⟨0, [⟨0, .void, .ret none⟩]⟩,
    ⟨1, [⟨1, bytePtr, .getelementptr (.inst 1 bytePtr) [.const (.int 64 1)]⟩,
      ⟨2, .int 8, .load (.inst 1 bytePtr)⟩, ⟨3, .void, .branch 0 [] [1]⟩]⟩]

def deadLoopModule : Module := ⟨[deadLoopFunction], by decide⟩

theorem deadLoopFunction_reachable {b : BlockId} (hreach : deadLoopFunction.Reachable b) :
    b = 0 := by
  apply hreach.mem_of_closed (fun b => b = 0) rfl
  rintro a b ha ⟨B, hB, rfl, hb⟩
  simp only [deadLoopFunction, List.mem_cons, List.not_mem_nil, or_false] at hB
  rcases hB with rfl | rfl <;> simp_all [Block.succs, Op.succs]

theorem deadLoopFunction_ssaForm : deadLoopFunction.SsaForm where
  labels := by decide
  operands := by decide
  uses := by
    rintro ⟨b, i⟩ I ⟨B, hB, rfl, hI⟩ hreach _ v hv
    simp only [deadLoopFunction, List.mem_cons, List.not_mem_nil, or_false] at hB
    rcases hB with rfl | rfl
    · rcases i with _ | i <;> simp at hI
      subst hI
      simp [Op.values] at hv
    · exact absurd (deadLoopFunction_reachable hreach) (by simp)
  phis p I incoming hat hop := absurd hop (hat.op_ne_phi (by decide) incoming)

/-- The walk from the dead load never ends, and neither does the pass. -/
theorem deadLoopFunction_walksOn :
    deadLoopFunction ∈ deadLoopModule.functions ∧ deadLoopFunction.SsaForm ∧
    (∃ I ∈ deadLoopFunction.insts, I.op.access = some (.inst 1 bytePtr, texasGuardLoad)) ∧
    (∀ steps, internalWalk deadLoopModule steps (.inst 1 bytePtr) = none) ∧
    (∀ fuel, runOnModule .inOrder .inOrder fuel deadLoopModule = none) ∧
    ¬∀ I ∈ deadLoopFunction.insts, ∀ ptr flags, I.op.access = some (ptr, flags) →
      ∃ steps base, internalWalk deadLoopModule steps ptr = some base := by
  have hwalk : ∀ steps, internalWalk deadLoopModule steps (.inst 1 bytePtr) = none := by
    intro steps
    induction steps with
    | zero => rfl
    | succ steps ih => exact ih
  have hload : ∃ I ∈ deadLoopFunction.insts,
      I.op.access = some (.inst 1 bytePtr, texasGuardLoad) := by decide
  have hnever : ¬∃ steps base, internalWalk deadLoopModule steps (.inst 1 bytePtr) = some base := by
    rintro ⟨steps, base, hsome⟩
    simp [hwalk] at hsome
  obtain ⟨I, hI, haccess⟩ := hload
  refine ⟨List.mem_cons_self, deadLoopFunction_ssaForm, ⟨I, hI, haccess⟩, hwalk, ?_, ?_⟩
  · intro fuel
    cases hrun : runOnModule .inOrder .inOrder fuel deadLoopModule with
    | none => rfl
    | some M' =>
        have hmem := deadLoopModule.mem_insts_of_function List.mem_cons_self hI
        have hends := walksEnd_of_runOnModule hrun I hmem _ _ haccess
        exact absurd (exists_internalWalk_iff.mpr hends) hnever
  · intro hends
    exact hnever (hends I hI _ _ haccess)

end Carat

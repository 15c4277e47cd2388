import Carat.Instrumentation
import Carat.SsaForm

/-!
# The pass and the form of functions

The pass promises to preserve the control flow graph, and it does in every module.
It keeps more: a function in SSA form comes out in SSA form, and one whose operands
carry the types of their definitions comes out as one.  The guard sequence stands
right in front of the access it belongs to, so the pointer is defined before it; the
cast, where there is one, stands right in front of the call.
-/

namespace Carat

open Weaving

/-- The name, and the blocks with the instructions that they end with. -/
def Function.cfg (F : Function) : String × List (BlockId × Option Inst) :=
  (F.name, F.blocks.map fun B => (B.label, B.insts.getLast?))

/-- An operand that is an instruction carries the type of that instruction. -/
def Function.TypedUses (F : Function) : Prop :=
  ∀ I ∈ F.insts, ∀ v ∈ I.op.values, ∀ id ∈ v.id?, ∃ D ∈ F.insts, D.id = id ∧ D.ty = v.ty

instance (F : Function) : Decidable F.TypedUses :=
  inferInstanceAs (Decidable (∀ I ∈ F.insts, ∀ v ∈ I.op.values, ∀ id ∈ v.id?, _))

/-- A cast to `i8 *` of the pointer of a load or store. -/
def GuardCast (M : Module) (I : Inst) : Prop :=
  I.ty = voidPtrType ∧ ∃ J ∈ M.insts, ∃ ptr flags, J.op.access = some (ptr, flags) ∧
    I.op = .bitcast ptr

/-- A call as `void texas_guard(i8 *, i32)` is declared, with constant flags. -/
def TypedGuardCall (I : Inst) : Prop :=
  I.ty = .void ∧ ∃ ptr flags, ptr.ty = voidPtrType ∧
    I.op = guardCall [ptr, .const (.int 32 flags)]

theorem Module.mem_getOrInsertFunction {M : Module} {name : String} {F : Function}
    (hF : F ∈ (M.getOrInsertFunction name).functions) : F ∈ M.functions ∨ F = ⟨name, []⟩ := by
  simp only [getOrInsertFunction] at hF
  split at hF
  · exact Or.inl hF
  · simpa using hF

/-! ## Places in a woven function -/

/-- Where an instruction of a woven function has moved to. -/
def Function.movedPlace (before : InstId → List Inst) (F : Function) (p : BlockId × ℕ) :
    BlockId × ℕ :=
  (p.1, moved (fun I => before I.id) ((F.block? p.1).elim [] Block.insts) p.2)

theorem Function.block?_of_mem {F : Function} (hlabels : (F.blocks.map Block.label).Nodup)
    {B : Block} (hB : B ∈ F.blocks) : F.block? B.label = some B := by
  cases hfind : F.block? B.label with
  | none =>
      have hnone := List.find?_eq_none.mp hfind B hB
      simp at hnone
  | some C =>
      have hlabel : C.label = B.label := by simpa using List.find?_some hfind
      rw [List.inj_on_of_nodup_map hlabels (List.mem_of_find?_eq_some hfind) hB hlabel]

section Woven

variable (before : InstId → List Inst) {F : Function}

theorem Function.mem_blocks_weaveInsts {B' : Block} :
    B' ∈ (F.weaveInsts before).blocks ↔
      ∃ B ∈ F.blocks, (⟨B.label, weave (fun I => before I.id) B.insts⟩ : Block) = B' := by
  simp only [weaveInsts, mapInsts, List.mem_map]

theorem Block.succs_weave (B : Block) :
    Block.succs ⟨B.label, weave (fun I => before I.id) B.insts⟩ = B.succs := by
  simp only [Block.succs, getLast?_weave]

theorem Function.cfg_weaveInsts : (F.weaveInsts before).cfg = F.cfg := by
  simp only [cfg, weaveInsts, mapInsts, List.map_map, Prod.mk.injEq, true_and]
  exact List.map_congr_left fun B _ => by simp [getLast?_weave]

theorem Function.labels_weaveInsts :
    (F.weaveInsts before).blocks.map Block.label = F.blocks.map Block.label := by
  simp only [weaveInsts, mapInsts, List.map_map]
  rfl

theorem Function.entry_weaveInsts : (F.weaveInsts before).entry = F.entry := by
  simp only [entry, labels_weaveInsts]

theorem Function.flows_weaveInsts : (F.weaveInsts before).Flows = F.Flows := by
  funext a b
  apply propext
  constructor
  · rintro ⟨B', hB', rfl, hb⟩
    obtain ⟨B, hB, rfl⟩ := (F.mem_blocks_weaveInsts before).mp hB'
    rw [Block.succs_weave] at hb
    exact ⟨B, hB, rfl, hb⟩
  · rintro ⟨B, hB, rfl, hb⟩
    refine ⟨_, (F.mem_blocks_weaveInsts before).mpr ⟨B, hB, rfl⟩, rfl, ?_⟩
    rwa [Block.succs_weave]

theorem Function.reachable_weaveInsts {b : BlockId} :
    (F.weaveInsts before).Reachable b ↔ F.Reachable b := by
  rw [Reachable, flows_weaveInsts, entry_weaveInsts, Reachable]

theorem Function.mem_insts_weaveInsts {D : Inst} (hD : D ∈ F.insts) :
    D ∈ (F.weaveInsts before).insts := by
  rw [insts_weaveInsts, mem_weave]
  exact Or.inl hD

variable (hlabels : (F.blocks.map Block.label).Nodup)

include hlabels

theorem Function.movedPlace_of_mem {B : Block} (hB : B ∈ F.blocks) (i : ℕ) :
    F.movedPlace before (B.label, i) = (B.label, moved (fun I => before I.id) B.insts i) := by
  simp [movedPlace, block?_of_mem hlabels hB]

theorem Function.At.woven {p : BlockId × ℕ} {I : Inst} (hat : F.At p I) :
    (F.weaveInsts before).At (F.movedPlace before p) I := by
  obtain ⟨b, i⟩ := p
  obtain ⟨B, hB, rfl, hI⟩ := hat
  rw [movedPlace_of_mem before hlabels hB]
  exact ⟨_, (F.mem_blocks_weaveInsts before).mpr ⟨B, hB, rfl⟩, rfl, getElem?_weave_moved hI⟩

theorem Function.At.woven_front {b : BlockId} {i k m : ℕ} {I J : Inst} (hat : F.At (b, i) I)
    (hJ : (before I.id)[m]? = some J)
    (hk : k + (before I.id).length = (F.movedPlace before (b, i)).2 + m) :
    (F.weaveInsts before).At (b, k) J := by
  obtain ⟨B, hB, rfl, hI⟩ := hat
  rw [movedPlace_of_mem before hlabels hB] at hk
  exact ⟨_, (F.mem_blocks_weaveInsts before).mpr ⟨B, hB, rfl⟩, rfl,
    getElem?_weave_front hI hJ hk⟩

theorem Function.At.woven_cases {b : BlockId} {k : ℕ} {J : Inst}
    (hat : (F.weaveInsts before).At (b, k) J) :
    ∃ i I, F.At (b, i) I ∧
      (J = I ∧ k = (F.movedPlace before (b, i)).2 ∨
        ∃ m, (before I.id)[m]? = some J ∧
          k + (before I.id).length = (F.movedPlace before (b, i)).2 + m) := by
  obtain ⟨B', hB', rfl, hJ⟩ := hat
  obtain ⟨B, hB, rfl⟩ := (F.mem_blocks_weaveInsts before).mp hB'
  obtain ⟨i, I, hI, hcases⟩ := getElem?_weave_cases hJ
  refine ⟨i, I, ⟨B, hB, rfl, hI⟩, ?_⟩
  rwa [movedPlace_of_mem before hlabels hB]

/-- Instructions keep their order, and none gets between one and what was woven in
in front of it. -/
theorem Function.At.movedPlace_lt {b : BlockId} {i j : ℕ} {I : Inst} (hat : F.At (b, i) I)
    (hij : j < i) :
    (F.movedPlace before (b, j)).2 + (before I.id).length < (F.movedPlace before (b, i)).2 := by
  obtain ⟨B, hB, rfl, hI⟩ := hat
  rw [movedPlace_of_mem before hlabels hB, movedPlace_of_mem before hlabels hB]
  exact moved_lt hij hI

theorem Function.At.front_le_movedPlace {b : BlockId} {i : ℕ} {I : Inst} (hat : F.At (b, i) I) :
    (before I.id).length ≤ (F.movedPlace before (b, i)).2 := by
  obtain ⟨B, hB, rfl, hI⟩ := hat
  rw [movedPlace_of_mem before hlabels hB]
  exact @front_le_moved _ (fun I => before I.id) _ _ _ hI

theorem Function.DefinedBefore.woven {p : BlockId × ℕ} {v : Value} (hdefined : F.DefinedBefore p v)
    {k : ℕ} (hk : ∀ j < p.2, (F.movedPlace before (p.1, j)).2 < k) :
    (F.weaveInsts before).DefinedBefore (p.1, k) v := by
  cases v with
  | arg index ty => trivial
  | const value => trivial
  | inst id ty =>
      obtain ⟨⟨c, j⟩, D, hat, hid, hbefore⟩ := hdefined
      refine ⟨F.movedPlace before (c, j), D, hat.woven before hlabels, hid, ?_⟩
      rw [flows_weaveInsts, entry_weaveInsts]
      rcases hbefore with ⟨hsame, hj⟩ | hdominates
      · obtain rfl : c = p.1 := hsame
        exact Or.inl ⟨rfl, hk j hj⟩
      · exact Or.inr hdominates

theorem Function.DefinedBy.woven {b : BlockId} {v : Value} (hdefined : F.DefinedBy b v) :
    (F.weaveInsts before).DefinedBy b v := by
  cases v with
  | arg index ty => trivial
  | const value => trivial
  | inst id ty =>
      obtain ⟨q, D, hat, hid, hdominates⟩ := hdefined
      refine ⟨F.movedPlace before q, D, hat.woven before hlabels, hid, ?_⟩
      rwa [flows_weaveInsts, entry_weaveInsts]

end Woven

/-! ## Guard sequences -/

/-- The operands of a guard sequence: the guarded pointer, constants, and the cast
that comes first. -/
theorem GuardSequence.values {bound : InstId} {guard : Guard} {sequence : List Inst}
    (hsequence : GuardSequence bound guard sequence) {m : ℕ} {J : Inst}
    (hJ : sequence[m]? = some J) {v : Value} (hv : v ∈ J.op.values) :
    v = guard.pointer ∨ (∃ value, v = .const value) ∨
      ∃ C, sequence[0]? = some C ∧ 0 < m ∧ v = .inst C.id C.ty := by
  cases hsequence with
  | plain hty hcall =>
      rcases m with _ | m <;> simp at hJ
      subst hJ
      simp only [guardCall, Op.values, Callee.values, List.nil_append, List.mem_cons,
        List.not_mem_nil, or_false] at hv
      rcases hv with rfl | rfl
      · exact Or.inl rfl
      · exact Or.inr (Or.inl ⟨_, rfl⟩)
  | folded hpointer hcall =>
      rcases m with _ | m <;> simp at hJ
      subst hJ
      simp only [guardCall, Op.values, Callee.values, List.nil_append, List.mem_cons,
        List.not_mem_nil, or_false] at hv
      rcases hv with rfl | rfl <;> exact Or.inr (Or.inl ⟨_, rfl⟩)
  | cast hcast hcall =>
      rcases m with _ | _ | m <;> simp at hJ
      · subst hJ
        obtain rfl : v = guard.pointer := by simpa [Op.values] using hv
        exact Or.inl rfl
      · subst hJ
        simp only [guardCall, Op.values, Callee.values, List.nil_append, List.mem_cons,
          List.not_mem_nil, or_false] at hv
        rcases hv with rfl | rfl
        · exact Or.inr (Or.inr ⟨_, rfl, Nat.one_pos, rfl⟩)
        · exact Or.inr (Or.inl ⟨_, rfl⟩)

theorem GuardSequence.kinds {bound : InstId} {guard : Guard} {sequence : List Inst}
    (hsequence : GuardSequence bound guard sequence) : ∀ J ∈ sequence,
      J.ty = voidPtrType ∧ J.op = .bitcast guard.pointer ∨ TypedGuardCall J := by
  cases hsequence with
  | plain hty hcall =>
      rw [List.forall_mem_singleton]
      exact Or.inr ⟨rfl, guard.pointer, guard.flags, hty, rfl⟩
  | @folded _ value hpointer hcall =>
      rw [List.forall_mem_singleton]
      exact Or.inr ⟨rfl, .const (.bitcast value voidPtrType), guard.flags, rfl, rfl⟩
  | @cast cast _ hcast hcall =>
      rw [List.forall_mem_cons, List.forall_mem_singleton]
      exact ⟨Or.inl ⟨rfl, rfl⟩, Or.inr ⟨rfl, .inst cast voidPtrType, guard.flags, rfl, rfl⟩⟩

/-! ## Instrumented functions -/

namespace Instrumented

variable {M M' : Module} {before : InstId → List Inst} (hinst : Instrumented M M' before)
  {F : Function} (hF : F ∈ M.functions)

include hinst

theorem sequence_of_mem {I J : Inst} (hI : I ∈ M.insts) (hJ : J ∈ before I.id) :
    ∃ guard, I.op.access = some (guard.pointer, guard.flags) ∧
      GuardSequence M.freshId guard (before I.id) := by
  by_cases hneeds : ∃ guard, NeedsGuard M I guard
  · obtain ⟨guard, hneeds⟩ := hneeds
    have hsequence := hinst.guarded I hI guard hneeds
    obtain ⟨ptr, flags, haccess, _, rfl⟩ := hneeds
    exact ⟨_, haccess, hsequence⟩
  · rw [hinst.unguarded I hI (not_exists.mp hneeds)] at hJ
    simp at hJ

include hF

/-- What an instruction of the woven function mentions: what an instruction of the
original mentions, itself, or a cast that stands in front of an access. -/
theorem operand_cases {J : Inst} (hJ : J ∈ (F.weaveInsts before).insts) {v : Value}
    (hv : v ∈ J.op.values) {id : InstId} (hid : id ∈ v.id?) :
    (∃ I ∈ F.insts, v ∈ I.op.values) ∨
      ∃ D ∈ (F.weaveInsts before).insts, D.id = id ∧ D.ty = v.ty := by
  rw [Function.insts_weaveInsts, mem_weave] at hJ
  rcases hJ with hJ | ⟨I, hI, hJ⟩
  · exact Or.inl ⟨J, hJ, hv⟩
  · obtain ⟨guard, haccess, hsequence⟩ :=
      hinst.sequence_of_mem (M.mem_insts_of_function hF hI) hJ
    obtain ⟨m, hm⟩ := List.getElem?_of_mem hJ
    rcases hsequence.values hm hv with rfl | ⟨value, rfl⟩ | ⟨C, hC, _, rfl⟩
    · exact Or.inl ⟨I, hI, (Op.access_mem_values haccess).1⟩
    · simp [Value.id?] at hid
    · refine Or.inr ⟨C, ?_, Option.some.inj hid, rfl⟩
      rw [Function.insts_weaveInsts, mem_weave]
      exact Or.inr ⟨I, hI, List.mem_of_getElem? hC⟩

theorem typedUses (htyped : F.TypedUses) : (F.weaveInsts before).TypedUses := by
  intro J hJ v hv id hid
  rcases hinst.operand_cases hF hJ hv hid with ⟨I, hI, hv⟩ | hdefined
  · obtain ⟨D, hD, hDid, hty⟩ := htyped I hI v hv id hid
    exact ⟨D, F.mem_insts_weaveInsts before hD, hDid, hty⟩
  · exact hdefined

theorem uses (hssa : F.SsaForm) {b : BlockId} {k : ℕ} {J : Inst}
    (hat : (F.weaveInsts before).At (b, k) J) (hreach : F.Reachable b)
    (hphi : J.isPhi = false) {v : Value} (hv : v ∈ J.op.values) :
    (F.weaveInsts before).DefinedBefore (b, k) v := by
  obtain ⟨i, I, hI, hplace⟩ := hat.woven_cases before hssa.labels
  have hlt := fun j (hj : j < i) => hI.movedPlace_lt before hssa.labels hj
  rcases hplace with ⟨rfl, rfl⟩ | ⟨m, hm, hk⟩
  · have hdefined : F.DefinedBefore (b, i) v := hssa.uses (b, i) J hI hreach hphi v hv
    exact hdefined.woven before hssa.labels fun j hj => by
      have hbefore := hlt j hj
      dsimp only at hbefore ⊢
      omega
  · obtain ⟨guard, haccess, hsequence⟩ := hinst.sequence_of_mem
      (M.mem_insts_of_function hF hI.mem_insts) (List.mem_of_getElem? hm)
    obtain ⟨hptr, hnot⟩ := Op.access_mem_values haccess
    rcases hsequence.values hm hv with rfl | ⟨value, rfl⟩ | ⟨C, hC, hpos, rfl⟩
    · have hdefined : F.DefinedBefore (b, i) guard.pointer :=
        hssa.uses (b, i) I hI hreach hnot _ hptr
      exact hdefined.woven before hssa.labels fun j hj => by
        have hbefore := hlt j hj
        dsimp only at hbefore ⊢
        omega
    · trivial
    · -- the cast comes `m` places before
      have hle := hI.front_le_movedPlace before hssa.labels
      have hfront : (F.weaveInsts before).At (b, k - m) C :=
        hI.woven_front before hssa.labels hC (by omega)
      exact ⟨(b, k - m), C, hfront, rfl, Or.inl ⟨rfl, by dsimp only; omega⟩⟩

theorem ssaForm (hssa : F.SsaForm) : (F.weaveInsts before).SsaForm where
  labels := by
    rw [Function.labels_weaveInsts]
    exact hssa.labels
  operands := by
    intro J hJ id hid
    rcases List.mem_cons.mp hid with rfl | hid
    · exact ⟨J, hJ, rfl⟩
    · obtain ⟨v, hv, hvid⟩ := List.mem_filterMap.mp hid
      rcases hinst.operand_cases hF hJ hv hvid with ⟨I, hI, hv⟩ | ⟨D, hD, hDid, _⟩
      · have hmention : id ∈ I.mentions :=
          List.mem_cons_of_mem _ (List.mem_filterMap.mpr ⟨v, hv, hvid⟩)
        obtain ⟨D, hD, hDid⟩ := hssa.operands I hI id hmention
        exact ⟨D, F.mem_insts_weaveInsts before hD, hDid⟩
      · exact ⟨D, hD, hDid⟩
  uses := by
    rintro ⟨b, k⟩ J hat hreach hphi v hv
    rw [Function.reachable_weaveInsts] at hreach
    exact hinst.uses hF hssa hat hreach hphi hv
  phis := by
    rintro ⟨b, k⟩ J incoming hat hop b' v hincoming hreach
    rw [Function.reachable_weaveInsts] at hreach
    obtain ⟨i, I, hI, ⟨rfl, _⟩ | ⟨m, hm, _⟩⟩ := hat.woven_cases before hssa.labels
    · exact (hssa.phis (b, i) J incoming hI hop b' v hincoming hreach).woven before hssa.labels
    · have hphi := hinst.isPhi_before (M.mem_insts_of_function hF hI.mem_insts) J
        (List.mem_of_getElem? hm)
      simp [Inst.isPhi, hop, Op.isPhi] at hphi

end Instrumented

theorem Function.ssaForm_declaration (name : String) : (⟨name, []⟩ : Function).SsaForm where
  labels := List.nodup_nil
  operands := by simp [insts]
  uses := by
    rintro p I ⟨B, hB, _⟩
    simp at hB
  phis := by
    rintro p I incoming ⟨B, hB, _⟩
    simp at hB

/-- The pass keeps the blocks and the instructions they end with, SSA form and typed
operands, and adds nothing but casts of the pointers of accesses and calls that are
typed as the guard's declaration asks. -/
theorem runOnModule_preserves_ssaForm {toGuardOrder allGuardsOrder : IterationOrder} {fuel : ℕ}
    {M M' : Module} (hrun : runOnModule toGuardOrder allGuardsOrder fuel M = some M') :
    M'.functions.map Function.cfg =
        (M.getOrInsertFunction "texas_guard").functions.map Function.cfg ∧
      ((∀ F ∈ M.functions, F.SsaForm) → ∀ F ∈ M'.functions, F.SsaForm) ∧
      ((∀ F ∈ M.functions, F.TypedUses) → ∀ F ∈ M'.functions, F.TypedUses) ∧
      ∀ I ∈ M'.insts, I ∈ M.insts ∨ GuardCast M I ∨ TypedGuardCall I := by
  obtain ⟨before, hinst⟩ := runOnModule_instrumented hrun
  have hfunctions : ∀ F' ∈ M'.functions,
      (∃ F ∈ M.functions, F.weaveInsts before = F') ∨ F' = ⟨"texas_guard", []⟩ := by
    intro F' hF'
    rw [hinst.woven.functions] at hF'
    obtain ⟨F, hF, rfl⟩ := List.mem_map.mp hF'
    rcases M.mem_getOrInsertFunction hF with hF | rfl
    · exact Or.inl ⟨F, hF, rfl⟩
    · exact Or.inr rfl
  refine ⟨?_, ?_, ?_, ?_⟩
  · rw [hinst.woven.functions, List.map_map]
    exact List.map_congr_left fun F _ => F.cfg_weaveInsts before
  · intro hssa F' hF'
    rcases hfunctions F' hF' with ⟨F, hF, rfl⟩ | rfl
    · exact hinst.ssaForm hF (hssa F hF)
    · exact Function.ssaForm_declaration _
  · intro htyped F' hF'
    rcases hfunctions F' hF' with ⟨F, hF, rfl⟩ | rfl
    · exact hinst.typedUses hF (htyped F hF)
    · exact fun I hI => absurd hI List.not_mem_nil
  · intro J hJ
    rw [hinst.woven.insts, mem_weave, M.insts_getOrInsertFunction] at hJ
    rcases hJ with hJ | ⟨I, hI, hJ⟩
    · exact Or.inl hJ
    · obtain ⟨guard, haccess, hsequence⟩ := hinst.sequence_of_mem hI hJ
      rcases hsequence.kinds J hJ with ⟨hty, hop⟩ | hcall
      · exact Or.inr (Or.inl ⟨hty, I, hI, _, _, haccess, hop⟩)
      · exact Or.inr (Or.inr hcall)

theorem runOnModule_preserves_ssaForm_slotModule :
    ∃ M', runOnModule .inOrder .inOrder 4 slotModule = some M' ∧
      M'.functions.map Function.cfg =
        (slotModule.getOrInsertFunction "texas_guard").functions.map Function.cfg ∧
      (∀ F ∈ M'.functions, F.SsaForm ∧ F.TypedUses) ∧
      ∀ I ∈ M'.insts, I ∈ slotModule.insts ∨ GuardCast slotModule I ∨ TypedGuardCall I := by
  obtain ⟨M', hM'⟩ : ∃ M', runOnModule .inOrder .inOrder 4 slotModule = some M' :=
    Option.isSome_iff_exists.mp (by decide +kernel)
  obtain ⟨hcfg, hssa, htyped, hadded⟩ := runOnModule_preserves_ssaForm hM'
  have hssa' := hssa (by simpa [slotModule] using slotFunction_ssaForm)
  have htyped' := htyped (by
    simp only [slotModule, List.mem_singleton, forall_eq]
    decide)
  exact ⟨M', hM', hcfg, fun F hF => ⟨hssa' F hF, htyped' F hF⟩, hadded⟩

end Carat

import Carat.GuardInsertion

/-!
# Which memory accesses are mediated

Loads and stores are, the exempt ones apart.  Other instructions that reach
memory through a pointer operand, the atomic ones and the memory intrinsics, get
no guard: the pass visits loads and stores only.
-/

namespace Carat

/-- A load through an `i64*`, moved on by a `getelementptr`, and a store. -/
def copyModule : Module where
  functions :=
    [⟨"copy",
      [⟨0,
        [⟨0, .ptr (.int 64), .getelementptr (.arg 0 (.ptr (.int 64))) [.const (.int 64 1)]⟩,
          ⟨1, .int 64, .load (.inst 0 (.ptr (.int 64)))⟩,
          ⟨2, .void, .store (.inst 1 (.int 64)) (.arg 1 (.ptr (.int 64)))⟩,
          ⟨3, .void, .ret none⟩]⟩]⟩]
  distinct := by decide

/-- The pass guards loads and stores and puts nothing in front of any other
instruction. -/
theorem runOnModule_guards_loads_and_stores (toGuardOrder allGuardsOrder : IterationOrder)
    {M : Module} (hwalks : M.WalksEnd) :
    ∃ bound, ∀ fuel, bound ≤ fuel →
      ∃ M' before, runOnModule toGuardOrder allGuardsOrder fuel M = some M' ∧
        M'.functions = (M.getOrInsertFunction "texas_guard").functions.map
          (Function.weaveInsts before) ∧
        ∀ I ∈ M.insts,
          (∀ ptr flags, I.op.access = some (ptr, flags) → ¬Exempt M ptr →
            GuardSequence M.freshId ⟨I.id, ptr, flags⟩ (before I.id)) ∧
          (I.op.access = none → before I.id = []) := by
  obtain ⟨bound, hbound⟩ := runOnModule_total toGuardOrder allGuardsOrder hwalks
  refine ⟨bound, fun fuel hfuel => ?_⟩
  obtain ⟨M', hM'⟩ := hbound fuel hfuel
  obtain ⟨before, hinst⟩ := runOnModule_instrumented hM'
  refine ⟨M', before, hM', hinst.woven.functions, fun I hI => ⟨?_, ?_⟩⟩
  · intro ptr flags haccess hnot
    exact hinst.guarded I hI _ ⟨ptr, flags, haccess, hnot, rfl⟩
  · exact hinst.before_of_no_access hI

theorem runOnModule_guards_loads_and_stores_copyModule :
    ∃ bound, ∀ fuel, bound ≤ fuel →
      ∃ M' before, runOnModule .inOrder .inOrder fuel copyModule = some M' ∧
        M'.functions = (copyModule.getOrInsertFunction "texas_guard").functions.map
          (Function.weaveInsts before) ∧
        ∀ I ∈ copyModule.insts,
          (∀ ptr flags, I.op.access = some (ptr, flags) → ¬Exempt copyModule ptr →
            GuardSequence copyModule.freshId ⟨I.id, ptr, flags⟩ (before I.id)) ∧
          (I.op.access = none → before I.id = []) :=
  runOnModule_guards_loads_and_stores .inOrder .inOrder (.of_fuel 2 (by decide))

structure MemoryAccess where
  pointer : Value
  reads : Bool
  writes : Bool
  deriving DecidableEq, Repr

def Op.memoryAccesses : Op → List MemoryAccess
  | .load ptr => [⟨ptr, true, false⟩]
  | .store _ ptr => [⟨ptr, false, true⟩]
  | .atomicrmw _ ptr _ => [⟨ptr, true, true⟩]
  | .cmpxchg ptr _ _ => [⟨ptr, true, true⟩]
  | .call (.function name) (dest :: src :: _) =>
      if "llvm.memcpy.".toList.isPrefixOf name.toList ||
          "llvm.memmove.".toList.isPrefixOf name.toList then
        [⟨dest, false, true⟩, ⟨src, true, false⟩]
      else if "llvm.memset.".toList.isPrefixOf name.toList then [⟨dest, false, true⟩]
      else []
  | _ => []

/-- Somewhere before the instruction, in its block, stands a guard call with the
bits of the access. -/
def Mediates (M' : Module) (I : Inst) (access : MemoryAccess) : Prop :=
  ∃ F ∈ M'.functions, ∃ B ∈ F.blocks, ∃ first last, B.insts = first ++ I :: last ∧
    ∃ call ∈ first, ∃ v flags, call.op = guardCall [v, .const (.int 32 flags)] ∧
      (access.reads = true → flags.testBit 0 = true) ∧
      (access.writes = true → flags.testBit 1 = true)

/-- An atomic increment, a compare-and-swap and a `memcpy`, through arguments. -/
def atomicModule : Module where
  functions :=
    [⟨"counter",
      [⟨0,
        [⟨0, .int 32, .atomicrmw 1 (.arg 0 (.ptr (.int 32))) (.const (.int 32 1))⟩,
          ⟨1, .int 32, .cmpxchg (.arg 0 (.ptr (.int 32))) (.const (.int 32 0))
            (.const (.int 32 1))⟩,
          ⟨2, .void, .call (.function "llvm.memcpy.p0i8.p0i8.i64")
            [.arg 1 (.ptr (.int 8)), .arg 2 (.ptr (.int 8)), .const (.int 64 8),
              .const (.int 1 0)]⟩,
          ⟨3, .void, .ret none⟩]⟩]⟩]
  distinct := by decide

def atomicAccesses : List MemoryAccess :=
  [⟨.arg 0 (.ptr (.int 32)), true, true⟩, ⟨.arg 0 (.ptr (.int 32)), true, true⟩,
    ⟨.arg 1 (.ptr (.int 8)), false, true⟩, ⟨.arg 2 (.ptr (.int 8)), true, false⟩]

theorem not_exempt_arg (M : Module) (index : ℕ) (ty : Ty) : ¬Exempt M (.arg index ty) := by
  intro hexempt
  simpa using hexempt.eq_inst

theorem atomic_accesses_unguarded :
    ∃ M', runOnModule .inOrder .inOrder 1 atomicModule = some M' ∧
      (atomicModule.insts.flatMap fun I => I.op.memoryAccesses) = atomicAccesses ∧
      ∀ I ∈ atomicModule.insts, ∀ access ∈ I.op.memoryAccesses,
        ¬Exempt atomicModule access.pointer ∧ ¬Mediates M' I access := by
  have haccesses : (atomicModule.insts.flatMap fun I => I.op.memoryAccesses) =
      atomicAccesses := by decide +kernel
  refine ⟨atomicModule.getOrInsertFunction "texas_guard", by decide +kernel, haccesses, ?_⟩
  intro I hI access haccess
  constructor
  · have hmem : access ∈ atomicAccesses :=
      haccesses ▸ List.mem_flatMap.mpr ⟨I, hI, haccess⟩
    obtain ⟨index, ty, harg⟩ : ∃ index ty, access.pointer = .arg index ty := by
      simp only [atomicAccesses, List.mem_cons, List.not_mem_nil, or_false] at hmem
      rcases hmem with rfl | rfl | rfl | rfl <;> exact ⟨_, _, rfl⟩
    rw [harg]
    exact not_exempt_arg atomicModule index ty
  · rintro ⟨F, hF, B, hB, first, last, hsplit, call, hcall, v, flags, hop, _⟩
    have hmem : call ∈ atomicModule.insts := by
      rw [← Module.insts_getOrInsertFunction atomicModule "texas_guard"]
      refine List.mem_flatMap.mpr ⟨F, hF, List.mem_flatMap.mpr ⟨B, hB, ?_⟩⟩
      rw [hsplit]
      exact List.mem_append_left _ hcall
    have hnone : ∀ J ∈ atomicModule.insts, ∀ args, J.op ≠ guardCall args := by
      simp [atomicModule, Module.insts, Function.insts, guardCall]
    exact hnone call hmem _ hop

end Carat

import Carat.Instrumentation
import Carat.FlatMemory
import Carat.PolicyScan

/-!
# A guarded access and the policy

The pass and the policy module put together.  In a run of an instrumented module
the guard call in front of an access carries the pointer and the kind of access,
and no width; the policy module answers for the one address it is given.  So an
allowed access is covered from its first byte to the end of the region that was
found there.
-/

namespace Carat

open LabelledRun SteeredTree

variable {Val World : Type}

/-- The byte at an address may be accessed in this way. -/
def Allowed (nodes : List PolicyNode) (address : BitVec 64) (flags : BitVec 32) : Prop :=
  ∃ node ∈ nodes, node.Covers address ∧ node.Permits flags

instance (nodes : List PolicyNode) (address : BitVec 64) (flags : BitVec 32) :
    Decidable (Allowed nodes address flags) :=
  inferInstanceAs (Decidable (∃ _ ∈ _, _))

theorem PolicyNode.Covers.byte {node : PolicyNode} {address : BitVec 64}
    (hcovers : node.Covers address) {width : ℕ}
    (hwidth : address.toNat + width ≤ node.addr.toNat + node.len.toNat)
    (hfits : address.toNat + width ≤ 2 ^ 64) {i : ℕ} (hi : i < width) :
    node.Covers (address + BitVec.ofNat 64 i) := by
  unfold PolicyNode.Covers at hcovers ⊢
  have haddress : (address + BitVec.ofNat 64 i).toNat = address.toNat + i := by
    rw [BitVec.toNat_add, BitVec.toNat_ofNat]
    omega
  omega

/-- The verdict on an access, and what it means for the access's bytes. -/
def VerdictCovers (kernel : KernelRbtree) (nodes : List PolicyNode) (address : BitVec 64)
    (flags : BitVec 32) : Prop :=
  texasGuard (publishedPolicy kernel nodes) address flags = .returns .allowed →
    ∃ node ∈ nodes, node.Covers address ∧ node.Permits flags ∧
      ∀ width, address.toNat + width ≤ node.addr.toNat + node.len.toNat →
        address.toNat + width ≤ 2 ^ 64 →
          ∀ i < width, Allowed nodes (address + BitVec.ofNat 64 i) flags

theorem verdictCovers {kernel : KernelRbtree} (hkernel : kernel.KeepsOrder)
    (nodes : List PolicyNode) (address : BitVec 64) (flags : BitVec 32) :
    VerdictCovers kernel nodes address flags := by
  intro hallowed
  simp only [texasGuard, publishedPolicy, Outcome.returns.injEq,
    guardVerdict_allowed_iff] at hallowed
  obtain ⟨region, hlookup, hcheck⟩ := hallowed
  obtain ⟨node, hnode, rfl, hcovers⟩ := lookupRegion_listToTree_sound hkernel hlookup
  have hpermits := (checkProtections_iff_permits flags node).mp hcheck
  refine ⟨node, hnode, hcovers, hpermits, fun width hwidth hfits i hi => ?_⟩
  exact ⟨node, hnode, hcovers.byte hwidth hfits hi, hpermits⟩

/-- Right in front of an access that is not exempt stands its guard call. -/
def GuardedBy (M : Module) (interp : Interp Val World) (earlier : List (Event Val))
    (event : Event Val) : Prop :=
  ∀ id p flags, event.access = some (id, p, flags) → ¬ExemptAccess M id →
    ∃ start, earlier = start ++ [guardEvent interp p flags]

theorem guardedBy_of_no_access {M : Module} {interp : Interp Val World}
    {earlier : List (Event Val)} {event : Event Val} (hnone : event.access = none) :
    GuardedBy M interp earlier event := by
  intro id p flags haccess
  simp [hnone] at haccess

theorem Pending.guardedBy {M : Module} {interp : Interp Val World} {last : State Val World}
    {pending : List (Event Val)} (hpending : Pending M interp last pending)
    {trace : List (Event Val)} (htrace : Explained (GuardedBy M interp) trace) :
    Explained (GuardedBy M interp) (trace ++ pending) := by
  rcases hpending with rfl | ⟨_, _, _, _, guard, p, _, _, _, _, rfl⟩
  · rwa [List.append_nil]
  · exact htrace.snoc (guardedBy_of_no_access rfl)

theorem explained_flatMap_withGuards (M : Module) (interp : Interp Val World)
    (trace : List (Event Val)) :
    Explained (GuardedBy M interp) (trace.flatMap (withGuards M interp)) := by
  induction trace using List.reverseRecOn with
  | nil => exact explained_nil _
  | append_singleton trace event ih =>
      rw [List.flatMap_append, List.flatMap_singleton]
      cases haccess : event.access with
      | none =>
          simp only [withGuards, haccess]
          exact ih.snoc (guardedBy_of_no_access haccess)
      | some access =>
          obtain ⟨id, p, flags⟩ := access
          simp only [withGuards, haccess]
          split
          · rename_i hexempt
            refine ih.snoc ?_
            intro id' p' flags' haccess' hnot
            obtain ⟨rfl, rfl, rfl⟩ : id = id' ∧ p = p' ∧ flags = flags' := by
              simpa [haccess] using haccess'
            exact absurd hexempt hnot
          · have hguard : GuardedBy M interp (trace.flatMap (withGuards M interp))
                (guardEvent interp p flags) := guardedBy_of_no_access rfl
            have hevent : GuardedBy M interp
                (trace.flatMap (withGuards M interp) ++ [guardEvent interp p flags]) event := by
              intro id' p' flags' haccess' _
              obtain ⟨rfl, rfl, rfl⟩ : id = id' ∧ p = p' ∧ flags = flags' := by
                simpa [haccess] using haccess'
              exact ⟨_, rfl⟩
            simpa using (ih.snoc hguard).snoc hevent

/-- In every run of an instrumented module, the call in front of an access that is
not exempt asks for exactly this pointer and kind of access; when it is allowed,
the access is permitted from its first byte to the end of the region found. -/
theorem guarded_access_covered {kernel : KernelRbtree} (hkernel : kernel.KeepsOrder)
    (nodes : List PolicyNode) {toGuardOrder allGuardsOrder : IterationOrder} {fuel : ℕ}
    {M M' : Module} (hrun : runOnModule toGuardOrder allGuardsOrder fuel M = some M')
    (hexternal : M.definition? "texas_guard" = none) {interp : Interp Val World}
    (hinert : GuardInert interp) (address : Val → BitVec 64) {name : String}
    {args : List Val} {world : World} {trace : List (Event Val)} {last : State Val World}
    (hmodule : ModuleRun M' interp name args world trace last) :
    Explained
      (fun earlier event => ∀ id p flags, event.access = some (id, p, flags) →
        ¬ExemptAccess M id →
          (∃ start, earlier = start ++ [guardEvent interp p flags]) ∧
          VerdictCovers kernel nodes (address p) (BitVec.ofNat 32 flags))
      trace := by
  obtain ⟨before, hinst⟩ := runOnModule_instrumented hrun
  obtain ⟨trace₀, last₀, pending, _, rfl, hpending, _⟩ :=
    (hinst.runsWithGuards hexternal hinert).backward _ _ _ _ _ hmodule
  have hguarded := hpending.guardedBy (explained_flatMap_withGuards M interp trace₀)
  intro earlier event later hsplit id p flags haccess hnot
  exact ⟨hguarded earlier event later hsplit id p flags haccess hnot,
    verdictCovers hkernel nodes _ _⟩

def wideModule : Module where
  functions :=
    [⟨"wide",
      [⟨0,
        [⟨0, .int 64, .load (.arg 0 (.ptr (.int 64)))⟩,
          ⟨1, .void, .ret none⟩]⟩]⟩]
  distinct := by decide

def guardedWideModule : Module where
  functions :=
    [⟨"wide",
      [⟨0,
        [⟨2, .ptr (.int 8), .bitcast (.arg 0 (.ptr (.int 64)))⟩,
          ⟨3, .void, guardCall [.inst 2 (.ptr (.int 8)), .const (.int 32 1)]⟩,
          ⟨0, .int 64, .load (.arg 0 (.ptr (.int 64)))⟩,
          ⟨1, .void, .ret none⟩]⟩]⟩,
      ⟨"texas_guard", []⟩]
  distinct := by decide

theorem guardedWideModule_eq :
    runOnModule .inOrder .inOrder 1 wideModule = some guardedWideModule := by
  decide +kernel

theorem slotPlatform_guardInert : GuardInert slotPlatform.interp := fun _ _ => ⟨0, rfl⟩

theorem guardedWideModule_run :
    ∃ last, ModuleRun guardedWideModule slotPlatform.interp "wide" [0x1000] emptyWorld
      [.call "texas_guard" [0x1000, 1], .load 0 0x1000] last :=
  ⟨_, _, _, rfl, rfl, run_of_stepTimes 3 rfl⟩

theorem guarded_access_covered_wideModule :
    Explained
      (fun earlier event => ∀ id p flags, event.access = some (id, p, flags) →
        ¬ExemptAccess wideModule id →
          (∃ start, earlier = start ++ [guardEvent slotPlatform.interp p flags]) ∧
          VerdictCovers bottomUpRbtree [⟨0x1000, 8, 1⟩] p (BitVec.ofNat 32 flags))
      [.call "texas_guard" [0x1000, 1], .load 0 0x1000] :=
  have hmodule := guardedWideModule_run.choose_spec
  guarded_access_covered bottomUpRbtree_keepsOrder [⟨0x1000, 8, 1⟩] guardedWideModule_eq
    (by decide) slotPlatform_guardInert id hmodule

/-- Eight bytes are loaded where a region of one byte allows the first. -/
theorem straddling_load_allowed :
    bottomUpRbtree.KeepsOrder ∧
    runOnModule .inOrder .inOrder 1 wideModule = some guardedWideModule ∧
    (∃ last, ModuleRun guardedWideModule slotPlatform.interp "wide" [0x1000] emptyWorld
      [.call "texas_guard" [0x1000, 1], .load 0 0x1000] last) ∧
    texasGuard (publishedPolicy bottomUpRbtree [⟨0x1000, 1, 1⟩]) 0x1000 1 =
      .returns .allowed ∧
    slotPlatform.sizeOf (.int 64) = 8 ∧
    ¬Allowed [⟨0x1000, 1, 1⟩] (0x1000 + 1) 1 :=
  ⟨bottomUpRbtree_keepsOrder, guardedWideModule_eq, guardedWideModule_run, by decide, rfl,
    by decide⟩

end Carat

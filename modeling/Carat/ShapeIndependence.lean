import Carat.PermissionOrder
import Carat.PolicyContent
import Carat.SearchShapes

/-!
# Verdicts and the shape of the tree

`insert_region` compares starts only, so the regions of a policy may overlap.  Which
of them a guard finds, and whether it finds any, is then up to the way in which the
kernel balances its tree.

For any list it can be decided which it is.  No guard depends on the shape exactly
when at every start and every end of a region the regions that are held there agree
with the last one to start.
-/

namespace Carat

open SteeredTree

/-- Where a search stops at the region; its end is the wrapped one. -/
def MemoryRegion.Holds (region : MemoryRegion) (address : BitVec 64) : Prop :=
  region.start ≤ address.toNat ∧ address.toNat < region.stop

instance (region : MemoryRegion) (address : BitVec 64) : Decidable (region.Holds address) :=
  inferInstanceAs (Decidable (_ ∧ _))

/-- If regions hold the address, the last to start is one of them, and all of them have
its permissions. -/
def ClearAt (regions : List MemoryRegion) (address : BitVec 64) : Prop :=
  ∀ region ∈ regions, region.Holds address →
    ∃ nearest ∈ regions, Nearest MemoryRegion.start address.toNat regions nearest ∧
      address.toNat < nearest.stop ∧ nearest.protect = region.protect

instance (regions : List MemoryRegion) (address : BitVec 64) :
    Decidable (ClearAt regions address) :=
  inferInstanceAs (Decidable (∀ region ∈ regions, _ → ∃ nearest ∈ regions, _))

/-- Clear at every start and at every end. -/
def ShapeFree (nodes : List PolicyNode) : Prop :=
  ∀ region ∈ keptRegions nodes, ClearAt (keptRegions nodes) region.addr ∧
    ClearAt (keptRegions nodes) (region.addr + region.len)

instance (nodes : List PolicyNode) : Decidable (ShapeFree nodes) :=
  inferInstanceAs (Decidable (∀ region ∈ keptRegions nodes, _ ∧ _))

/-- What is wrong somewhere is wrong at a start or at an end. -/
theorem ShapeFree.clearAt {nodes : List PolicyNode} (hfree : ShapeFree nodes)
    (address : BitVec 64) : ClearAt (keptRegions nodes) address := by
  have hordered := keptRegions_ordered nodes
  intro region hregion hholds
  obtain ⟨nearest, hnearest⟩ := exists_nearest hregion hholds.1
  have hstarts := hnearest.last region hregion hholds.1
  obtain ⟨hclearStart, hclearEnd⟩ := hfree nearest hnearest.mem
  -- the region holds the nearest start, and the nearest end if that is past it
  have hatStart : region.Holds nearest.addr := ⟨hstarts, hnearest.inTime.trans_lt hholds.2⟩
  have hnearestStart : Nearest MemoryRegion.start nearest.addr.toNat (keptRegions nodes) nearest :=
    ⟨hnearest.mem, le_rfl, fun x _ hx => hx⟩
  obtain ⟨same, _, hsame, hsameStop, hprotect⟩ := hclearStart region hregion hatStart
  obtain rfl := hsame.unique hordered hnearestStart
  refine ⟨same, hnearest.mem, hnearest, ?_, hprotect⟩
  by_contra hpast
  rw [not_lt] at hpast
  have hatEnd : region.Holds (same.addr + same.len) :=
    ⟨hstarts.trans hsameStop.le, hpast.trans_lt hholds.2⟩
  have hnearestEnd : Nearest MemoryRegion.start (same.addr + same.len).toNat
      (keptRegions nodes) same :=
    ⟨hnearest.mem, hsameStop.le, fun x hx hxstart => hnearest.last x hx (hxstart.trans hpast)⟩
  obtain ⟨same', _, hsame', hsameStop', _⟩ := hclearEnd region hregion hatEnd
  obtain rfl := hsame'.unique hordered hnearestEnd
  exact lt_irrefl _ hsameStop'

/-! ## Every shape occurs -/

theorem listToTree_rooted (i : ℕ) (nodes : List PolicyNode) {root : RbTree MemoryRegion}
    (hroot : root = .rootedAt i root.inorder) :
    listToTree (rootedRbtree i) root nodes =
      .rootedAt i (listToTree (rootedRbtree i) root nodes).inorder := by
  induction nodes generalizing root with
  | nil => exact hroot
  | cons node rest ih =>
      apply ih
      unfold insertRegion
      cases root.descend (insertTurn node.toRegion.addr) with
      | found place data => exact hroot
      | vacant link =>
          simp [rootedRbtree]

theorem listToTree_rootedRbtree (i : ℕ) (nodes : List PolicyNode) :
    listToTree (rootedRbtree i) .nil nodes = .rootedAt i (keptRegions nodes) := by
  have hrooted := @listToTree_rooted i nodes .nil (by simp [RbTree.rootedAt, RbTree.chain])
  rwa [inorder_listToTree (rootedRbtree_keepsOrder i)] at hrooted

/-! ## The verdict at one address -/

section Verdict

variable {nodes : List PolicyNode} {ptr : BitVec 64} {flags : BitVec 32}

theorem texasGuard_published (kernel : KernelRbtree) (nodes : List PolicyNode) (ptr : BitVec 64)
    (flags : BitVec 32) :
    texasGuard (publishedPolicy kernel nodes) ptr flags =
      .returns (guardVerdict flags ((listToTree kernel .nil nodes).descend
        (intervalSteer MemoryRegion.start MemoryRegion.stop ptr.toNat)).data?) := by
  rw [← lookupTurn_eq_intervalSteer, ← lookupRegion_data]
  rfl

/-- A verdict is the same under every kernel exactly when it is agreed. -/
theorem texasGuard_every_kernel_iff (outcome : GuardOutcome) :
    (∀ kernel : KernelRbtree, kernel.KeepsOrder →
      texasGuard (publishedPolicy kernel nodes) ptr flags = .returns outcome) ↔
      Agreed MemoryRegion.start MemoryRegion.stop ptr.toNat (keptRegions nodes)
        (guardVerdict flags) outcome := by
  constructor
  · intro hkernels
    refine agreed_of_rooted (keptRegions_ordered nodes) fun i => ?_
    have hverdict := hkernels (rootedRbtree i) (rootedRbtree_keepsOrder i)
    rw [texasGuard_published, listToTree_rootedRbtree] at hverdict
    exact Outcome.returns.inj hverdict
  · intro hagreed kernel hkernel
    rw [← inorder_listToTree hkernel] at hagreed
    rw [texasGuard_published, hagreed.search (publishedPolicy_ordered hkernel nodes)]

theorem guardVerdict_eq_iff {first second : MemoryRegion} :
    guardVerdict flags (some first) = guardVerdict flags (some second) ↔
      checkProtections flags first.protect = checkProtections flags second.protect := by
  simp only [guardVerdict]
  cases checkProtections flags first.protect <;>
    cases checkProtections flags second.protect <;> simp

theorem protect_eq_of_verdicts {first second : MemoryRegion}
    (hverdicts : ∀ flags, guardVerdict flags (some first) = guardVerdict flags (some second)) :
    first.protect = second.protect := by
  have hwithin : ∀ mine theirs : BitVec 8,
      (∀ flags, checkProtections flags mine = checkProtections flags theirs) →
        mine.setWidth 32 &&& theirs.setWidth 32 = mine.setWidth 32 := by
    intro mine theirs hsame
    have hself : checkProtections (mine.setWidth 32) mine = true := by
      rw [checkProtections_iff_bitsWithin]
      exact BitVec.and_self
    rw [hsame, checkProtections_iff_bitsWithin] at hself
    exact hself
  have hfirst := hwithin _ _ fun flags => guardVerdict_eq_iff.mp (hverdicts flags)
  have hsecond := hwithin _ _ fun flags => (guardVerdict_eq_iff.mp (hverdicts flags)).symm
  have hwide : first.protect.setWidth 32 = second.protect.setWidth 32 := by
    rw [← hfirst, BitVec.and_comm, hsecond]
  have hnarrow := congrArg (BitVec.setWidth 8) hwide
  simpa using hnarrow

theorem ClearAt.agreed (hclear : ClearAt (keptRegions nodes) ptr) (flags : BitVec 32) :
    ∃ outcome, Agreed MemoryRegion.start MemoryRegion.stop ptr.toNat (keptRegions nodes)
      (guardVerdict flags) outcome := by
  by_cases hheld : ∃ region ∈ keptRegions nodes, region.Holds ptr
  · obtain ⟨region, hregion, hholds⟩ := hheld
    obtain ⟨nearest, _, hnearest, hstop, _⟩ := hclear region hregion hholds
    refine ⟨guardVerdict flags (some nearest), ⟨fun other hother hstart hend => ?_,
      .inl ⟨nearest, hnearest, hstop⟩⟩⟩
    obtain ⟨nearest', _, hnearest', _, hprotect⟩ := hclear other hother ⟨hstart, hend⟩
    obtain rfl := hnearest'.unique (keptRegions_ordered nodes) hnearest
    exact guardVerdict_eq_iff.mpr (by rw [hprotect])
  · push Not at hheld
    exact ⟨guardVerdict flags none,
      ⟨fun other hother hstart hend => absurd ⟨hstart, hend⟩ (hheld other hother), .inr rfl⟩⟩

theorem clearAt_of_agreed (hagreed : ∀ flags, ∃ outcome, Agreed MemoryRegion.start
      MemoryRegion.stop ptr.toNat (keptRegions nodes) (guardVerdict flags) outcome) :
    ClearAt (keptRegions nodes) ptr := by
  intro region hregion hholds
  have hnearest : ∃ nearest, Nearest MemoryRegion.start ptr.toNat (keptRegions nodes) nearest ∧
      ptr.toNat < nearest.stop := by
    obtain ⟨outcome, hfound, hmissed⟩ := hagreed 0
    refine hmissed.resolve_right fun hnone => ?_
    have hverdict := hfound region hregion hholds.1 hholds.2
    exact absurd ((guardVerdict_noPolicy_iff 0 _).mp (hverdict.trans hnone.symm)) (by simp)
  obtain ⟨nearest, hnearest, hstop⟩ := hnearest
  refine ⟨nearest, hnearest.mem, hnearest, hstop, protect_eq_of_verdicts fun flags => ?_⟩
  obtain ⟨outcome, hfound, _⟩ := hagreed flags
  rw [hfound nearest hnearest.mem hnearest.inTime hstop,
    hfound region hregion hholds.1 hholds.2]

end Verdict

/-- **When the shape does not matter.**  All kernels that keep the order give the same
verdicts on a list exactly when it is shape-free, which its starts and ends decide. -/
theorem verdicts_shapeFree_iff (nodes : List PolicyNode) :
    (∀ kernel kernel' : KernelRbtree, kernel.KeepsOrder → kernel'.KeepsOrder → ∀ ptr flags,
      texasGuard (publishedPolicy kernel nodes) ptr flags =
        texasGuard (publishedPolicy kernel' nodes) ptr flags) ↔ ShapeFree nodes := by
  constructor
  · intro hsame
    have hclear : ∀ ptr, ClearAt (keptRegions nodes) ptr := fun ptr =>
      clearAt_of_agreed fun flags => ⟨_, (texasGuard_every_kernel_iff _).mp fun kernel hkernel =>
        (hsame kernel bottomUpRbtree hkernel bottomUpRbtree_keepsOrder ptr flags).trans
          (texasGuard_published ..)⟩
    exact fun region _ => ⟨hclear _, hclear _⟩
  · intro hfree kernel kernel' hkernel hkernel' ptr flags
    obtain ⟨outcome, hagreed⟩ := (hfree.clearAt ptr).agreed flags
    have hverdict := (texasGuard_every_kernel_iff outcome).mpr hagreed
    exact (hverdict kernel hkernel).trans (hverdict kernel' hkernel').symm

-- A region inside another hides the rest of it, unless a third one continues there.
example : ¬ShapeFree [⟨0x1000, 0x100, 1⟩, ⟨0x1010, 0x10, 1⟩] := by decide +kernel

example : ShapeFree [⟨0x1000, 0x100, 1⟩, ⟨0x1010, 0x10, 1⟩, ⟨0x1020, 0xe0, 1⟩] := by
  decide +kernel

end Carat

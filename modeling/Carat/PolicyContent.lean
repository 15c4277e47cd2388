import Carat.PolicyScan

/-!
# What a list leaves in the tree

The in-order content of the published tree in closed form, for any list at all:
of the nodes with one start address the first is kept, and what is kept is sorted.

The end of a kept region is a sum modulo `2 ^ 64`.  It lies past the start exactly
when the sum does not reach `2 ^ 64`; a region that reaches the top of the address
space is lost to the search.
-/

namespace Carat

open SteeredTree FirstByKey

def keptRegions (nodes : List PolicyNode) : List MemoryRegion :=
  ((firstNodes nodes).map PolicyNode.toRegion).insertionSort fun x y => x.start ≤ y.start

theorem keptRegions_perm (nodes : List PolicyNode) :
    (keptRegions nodes).Perm ((firstNodes nodes).map PolicyNode.toRegion) :=
  List.perm_insertionSort _ _

theorem keptRegions_ordered (nodes : List PolicyNode) :
    KeyOrdered MemoryRegion.start (keptRegions nodes) := by
  apply keyOrdered_insertionSort
  rw [List.pairwise_map]
  refine (pairwise_firstByKey nodes).imp ?_
  intro x y hne hstart
  exact hne (BitVec.eq_of_toNat_eq hstart)

theorem mem_keptRegions {nodes : List PolicyNode} {region : MemoryRegion} :
    region ∈ keptRegions nodes ↔ ∃ node ∈ firstNodes nodes, node.toRegion = region := by
  rw [(keptRegions_perm nodes).mem_iff, List.mem_map]

section Published

variable {kernel : KernelRbtree} (hkernel : kernel.KeepsOrder)

include hkernel

theorem inorder_listToTree (nodes : List PolicyNode) :
    (listToTree kernel .nil nodes).inorder = keptRegions nodes :=
  (publishedPolicy_ordered hkernel nodes).eq_of_perm (keptRegions_ordered nodes)
    ((inorder_listToTree_perm_firstNodes hkernel nodes).trans (keptRegions_perm nodes).symm)

end Published

/-! ## The computed end -/

namespace MemoryRegion

theorem addr_lt_end_iff {region : MemoryRegion} (hlen : region.len ≠ 0) :
    region.addr < region.addr + region.len ↔
      region.addr.toNat + region.len.toNat < 2 ^ 64 := by
  have hpos : 0 < region.len.toNat := by bv_omega
  have haddr := region.addr.isLt
  have hbound := region.len.isLt
  rw [BitVec.lt_def, BitVec.toNat_add]
  constructor
  · intro hlt
    by_contra hover
    have hwrapped : (region.addr.toNat + region.len.toNat) % 2 ^ 64 =
        region.addr.toNat + region.len.toNat - 2 ^ 64 := by
      omega
    omega
  · intro hfits
    rw [Nat.mod_eq_of_lt hfits]
    omega

end MemoryRegion

/-- The ends that the search computes mean what the regions say: each lies past
its start, and a region that reaches the top of the address space, alone there,
is found wherever it covers. -/
structure EndsHold (regionMap : RbTree MemoryRegion) : Prop where
  past : ∀ region ∈ regionMap.inorder, region.len ≠ 0 →
    region.addr < region.addr + region.len
  top : ∀ region ∈ regionMap.inorder, region.addr.toNat + region.len.toNat = 2 ^ 64 →
    (∀ other ∈ regionMap.inorder, other ≠ region → other.Disjoint region) →
      ∀ address, region.Covers address →
        (lookupRegion regionMap address).map Prod.snd = some region

theorem endsHold_iff {regionMap : RbTree MemoryRegion} :
    EndsHold regionMap ↔ ∀ region ∈ regionMap.inorder, region.len ≠ 0 →
      region.addr.toNat + region.len.toNat < 2 ^ 64 := by
  constructor
  · intro hends region hmem hlen
    exact (MemoryRegion.addr_lt_end_iff hlen).mp (hends.past region hmem hlen)
  · intro hfits
    refine ⟨fun region hmem hlen => (MemoryRegion.addr_lt_end_iff hlen).mpr
      (hfits region hmem hlen), ?_⟩
    intro region hmem htop
    have haddr := region.addr.isLt
    have hlen : region.len ≠ 0 := by
      intro hzero
      simp [hzero] at htop
      omega
    have hbelow := hfits region hmem hlen
    omega

section Published

variable {kernel : KernelRbtree} (hkernel : kernel.KeepsOrder)

include hkernel

/-- In the tree that a successful write publishes, the ends hold exactly when no
kept node of positive length reaches `2 ^ 64`. -/
theorem inputPolicy_endsHold_iff {fuel : ℕ} {call : WriteCall} {ppos : ℤ}
    {testPolicy : Policy} {result : WriteResult} {nodes : List PolicyNode}
    (hreturns : inputPolicy kernel fuel call ppos testPolicy = .returns result)
    (hsuccess : 0 < result.ret) (hcarries : call.Carries nodes) :
    ∃ regionMap, result.testPolicy.regionMap = some regionMap ∧
      (EndsHold regionMap ↔ ∀ node ∈ firstNodes nodes, node.len ≠ 0 →
        node.addr.toNat + node.len.toNat < 2 ^ 64) := by
  obtain ⟨_, hpublished⟩ := inputPolicy_success hreturns hsuccess hcarries
  refine ⟨listToTree kernel .nil nodes, by rw [hpublished]; rfl, ?_⟩
  rw [endsHold_iff, inorder_listToTree hkernel]
  constructor
  · intro hfits node hnode
    exact hfits node.toRegion (mem_keptRegions.mpr ⟨node, hnode, rfl⟩)
  · intro hfits region hmem
    obtain ⟨node, hnode, rfl⟩ := mem_keptRegions.mp hmem
    exact hfits node hnode

end Published

/-- The application's test 2: the whole address space but its last byte. -/
theorem inputPolicy_endsHold_wholeSpace :
    ∃ regionMap,
      (publishedPolicy bottomUpRbtree [⟨0, -1, 5⟩]).regionMap = some regionMap ∧
        EndsHold regionMap := by
  have hreturns : inputPolicy bottomUpRbtree 1 (writeOf [⟨0, -1, 5⟩]) 0 initialPolicy =
      .returns ⟨1, 1, publishedPolicy bottomUpRbtree [⟨0, -1, 5⟩]⟩ := by
    decide
  obtain ⟨regionMap, hmap, hiff⟩ := inputPolicy_endsHold_iff bottomUpRbtree_keepsOrder hreturns
    (by decide) (writeOf_delivers (by decide)).parsed
  exact ⟨regionMap, hmap, hiff.mpr (by decide)⟩

theorem top_byte_lost :
    bottomUpRbtree.KeepsOrder ∧ ∃ regionMap,
      inputPolicy bottomUpRbtree 1 (writeOf [⟨-1, 1, 1⟩]) 0 initialPolicy =
        .returns ⟨1, 1, ⟨1, some regionMap⟩⟩ ∧
      regionMap.inorder = [⟨-1, 1, 1⟩] ∧ (⟨-1, 1, 1⟩ : MemoryRegion).Covers (-1) ∧
      lookupRegion regionMap (-1) = none ∧ ¬EndsHold regionMap := by
  refine ⟨bottomUpRbtree_keepsOrder, listToTree bottomUpRbtree .nil [⟨-1, 1, 1⟩], by decide,
    by decide, by decide, by decide, ?_⟩
  intro hends
  have hpast := hends.past ⟨-1, 1, 1⟩ (by decide) (by decide)
  exact absurd hpast (by decide)

end Carat

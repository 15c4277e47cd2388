import Carat.LabelledRun
import Carat.PolicyTree

/-!
# When the stored regions are disjoint

Insertion compares start addresses and nothing else, so it accepts a region that
overlaps others.  Over any run of insertions and deletions the tree is ordered by
start; it is disjoint throughout exactly when every accepted insertion brings a
region disjoint from those present.
-/

namespace Carat

open SteeredTree LabelledRun

inductive TreeOp where
  | insertRegion (newRegion : MemoryRegion)
  | deleteRegion (addr : BitVec 64)
  deriving DecidableEq, Repr

def TreeOp.apply (kernel : KernelRbtree) (root : RbTree MemoryRegion) :
    TreeOp → RbTree MemoryRegion
  | .insertRegion newRegion => (Carat.insertRegion kernel root newRegion).2
  | .deleteRegion addr => (Carat.deleteRegion kernel root addr).2

def runOps (kernel : KernelRbtree) (ops : List TreeOp) : RbTree MemoryRegion :=
  ops.foldl (TreeOp.apply kernel) .nil

def PairwiseDisjoint (root : RbTree MemoryRegion) : Prop :=
  root.inorder.Pairwise MemoryRegion.Disjoint

instance (root : RbTree MemoryRegion) : Decidable (PairwiseDisjoint root) :=
  inferInstanceAs (Decidable (List.Pairwise _ _))

theorem pairwiseDisjoint_nil : PairwiseDisjoint .nil := List.Pairwise.nil

/-- The call does not bring in an overlap: it deletes, or it is refused for its
start address, or its region is disjoint from every region present. -/
def TreeOp.KeepsApart (root : RbTree MemoryRegion) : TreeOp → Prop
  | .insertRegion newRegion =>
      (∃ old ∈ root.inorder, old.addr = newRegion.addr) ∨
        ∀ old ∈ root.inorder, old.Disjoint newRegion
  | .deleteRegion _ => True

section Runs

variable {kernel : KernelRbtree} (hkernel : kernel.KeepsOrder)

include hkernel

theorem TreeOp.apply_ordered {root : RbTree MemoryRegion}
    (hordered : RegionOrdered root) (op : TreeOp) :
    RegionOrdered (op.apply kernel root) := by
  cases op with
  | insertRegion newRegion => exact insertRegion_ordered hkernel hordered newRegion
  | deleteRegion addr => exact deleteRegion_ordered hkernel hordered addr

theorem runOps_ordered (ops : List TreeOp) : RegionOrdered (runOps kernel ops) := by
  have hstep : ∀ done op rest, ops = done ++ op :: rest →
      RegionOrdered (runOps kernel done) →
        RegionOrdered (op.apply kernel (runOps kernel done)) :=
    fun _ op _ _ hordered => op.apply_ordered hkernel hordered
  exact foldl_invariant (TreeOp.apply kernel) RegionOrdered regionOrdered_nil hstep ops []
    (by simp)

theorem TreeOp.pairwiseDisjoint_apply_iff {root : RbTree MemoryRegion}
    (hordered : RegionOrdered root) (hdisjoint : PairwiseDisjoint root)
    (op : TreeOp) :
    PairwiseDisjoint (op.apply kernel root) ↔ op.KeepsApart root := by
  cases op with
  | deleteRegion addr =>
      simp only [TreeOp.KeepsApart, iff_true, TreeOp.apply]
      rcases deleteRegion_cases hkernel root addr with
        ⟨_, hsame⟩ | ⟨place, region, before, after, _, hinorder, _, hnew⟩
      · rwa [hsame]
      · rw [PairwiseDisjoint, hnew]
        rw [PairwiseDisjoint, hinorder] at hdisjoint
        exact hdisjoint.sublist (by simp)
  | insertRegion newRegion =>
      simp only [TreeOp.KeepsApart, TreeOp.apply]
      by_cases htaken : ∃ old ∈ root.inorder, old.addr = newRegion.addr
      · rw [insertRegion_refused hkernel hordered htaken]
        exact iff_of_true hdisjoint (Or.inl htaken)
      · have hfresh : ∀ old ∈ root.inorder, old.addr ≠ newRegion.addr := by
          simpa using htaken
        have hperm := (insertRegion_accepted hkernel hordered hfresh).2
        have hpairwise :
            PairwiseDisjoint (Carat.insertRegion kernel root newRegion).2 ↔
              (newRegion :: root.inorder).Pairwise MemoryRegion.Disjoint :=
          hperm.pairwise_iff fun h => h.symm
        rw [hpairwise, List.pairwise_cons, or_iff_right htaken]
        constructor
        · intro h old hold
          exact (h.1 old hold).symm
        · intro h
          exact ⟨fun old hold => (h old hold).symm, hdisjoint⟩

/-- Over every run from the empty root: starts decide refusal, a refused call
leaves the tree alone, and the regions are disjoint after every call exactly
when every call keeps them apart. -/
theorem runOps_pairwiseDisjoint_iff (ops : List TreeOp) :
    (∀ newRegion,
      ((∃ old ∈ (runOps kernel ops).inorder, old.addr = newRegion.addr) →
        insertRegion kernel (runOps kernel ops) newRegion =
          (0, runOps kernel ops)) ∧
      ((∀ old ∈ (runOps kernel ops).inorder, old.addr ≠ newRegion.addr) →
        (insertRegion kernel (runOps kernel ops) newRegion).1 = 1 ∧
          (insertRegion kernel (runOps kernel ops) newRegion).2.inorder.Perm
            (newRegion :: (runOps kernel ops).inorder))) ∧
    ((∀ done rest, ops = done ++ rest → PairwiseDisjoint (runOps kernel done)) ↔
      ∀ done op rest, ops = done ++ op :: rest →
        op.KeepsApart (runOps kernel done)) := by
  have hordered := runOps_ordered hkernel ops
  refine ⟨fun newRegion => ⟨insertRegion_refused hkernel hordered,
    insertRegion_accepted hkernel hordered⟩, ?_, ?_⟩
  · intro hdisjoint done op rest hops
    have hbefore := hdisjoint done (op :: rest) hops
    have hafter := hdisjoint (done ++ [op]) rest (by simpa using hops)
    rw [runOps, List.foldl_append] at hafter
    exact (op.pairwiseDisjoint_apply_iff hkernel (runOps_ordered hkernel done)
      hbefore).mp hafter
  · intro hapart
    apply foldl_invariant (TreeOp.apply kernel) PairwiseDisjoint pairwiseDisjoint_nil
    intro done op rest hops hbefore
    exact (op.pairwiseDisjoint_apply_iff hkernel (runOps_ordered hkernel done)
      hbefore).mpr (hapart done op rest hops)

end Runs

/-- Erasing leaves out the recolouring here, which neither the order nor the answer of a
later insertion depends on. -/
theorem runOps_pairwiseDisjoint_adjacent :
    (runOps bottomUpRbtree
      [.insertRegion ⟨0, 16, 1⟩, .insertRegion ⟨16, 16, 2⟩,
        .insertRegion ⟨16, 99, 4⟩, .deleteRegion 3]).inorder = [⟨16, 16, 2⟩] ∧
    ∀ newRegion : MemoryRegion, newRegion.addr ≠ 16 →
      (insertRegion bottomUpRbtree
        (runOps bottomUpRbtree
          [.insertRegion ⟨0, 16, 1⟩, .insertRegion ⟨16, 16, 2⟩,
            .insertRegion ⟨16, 99, 4⟩, .deleteRegion 3]) newRegion).1 = 1 := by
  have hinorder : (runOps bottomUpRbtree
      [.insertRegion ⟨0, 16, 1⟩, .insertRegion ⟨16, 16, 2⟩,
        .insertRegion ⟨16, 99, 4⟩, .deleteRegion 3]).inorder = [⟨16, 16, 2⟩] := by
    decide
  refine ⟨hinorder, ?_⟩
  intro newRegion haddr
  refine ((runOps_pairwiseDisjoint_iff bottomUpRbtree_keepsOrder
    [.insertRegion ⟨0, 16, 1⟩, .insertRegion ⟨16, 16, 2⟩,
      .insertRegion ⟨16, 99, 4⟩, .deleteRegion 3]).1 newRegion).2 ?_ |>.1
  rw [hinorder]
  simpa using haddr.symm

/-- The second region starts inside the first and is accepted. -/
theorem overlapping_insert_accepted :
    bottomUpRbtree.KeepsOrder ∧
    (insertRegion bottomUpRbtree (runOps bottomUpRbtree
      [.insertRegion ⟨0, 10, 1⟩]) ⟨5, 10, 2⟩).1 = 1 ∧
    ¬PairwiseDisjoint (runOps bottomUpRbtree
      [.insertRegion ⟨0, 10, 1⟩, .insertRegion ⟨5, 10, 2⟩]) :=
  ⟨bottomUpRbtree_keepsOrder, by decide, by decide⟩

end Carat

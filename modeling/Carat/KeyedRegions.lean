import Carat.RegionDisjointness

/-!
# The tree as a set of regions

A run of insertions and deletions from the empty root keeps a set of regions in
which a start address occurs once.  Insertion is by start, deletion by whatever
region `lookup_region` finds at an address.

When the regions are non-empty, pairwise disjoint and end below `2 ^ 64`, the
search no longer depends on the shape of the tree: it answers with the one region
that covers the address.  Deletion then takes away that region's addresses and
changes no other answer.
-/

namespace Carat

open SteeredTree

theorem RegionOrdered.not_mem_of_split {root : RbTree MemoryRegion}
    (hordered : RegionOrdered root) {before after : List MemoryRegion}
    {region : MemoryRegion} (hinorder : root.inorder = before ++ region :: after) :
    region ∉ before ++ after := by
  have hpairwise : (region :: (before ++ after)).Pairwise fun x y => x.start ≠ y.start := by
    refine (List.perm_middle.pairwise_iff fun h => h.symm).mp ?_
    rw [← hinorder]
    exact hordered.imp fun hlt => hlt.ne
  intro hmem
  exact (List.pairwise_cons.mp hpairwise).1 region hmem rfl

section Runs

variable {kernel : KernelRbtree} (hkernel : kernel.KeepsOrder)

include hkernel

theorem insertRegion_keyed {root : RbTree MemoryRegion} (hordered : RegionOrdered root)
    (newRegion : MemoryRegion) :
    ((insertRegion kernel root newRegion).1 = 1 ↔
      ∀ old ∈ root.inorder, old.addr ≠ newRegion.addr) ∧
    ((insertRegion kernel root newRegion).1 = 1 →
      ∃ before after, root.inorder = before ++ after ∧
        (insertRegion kernel root newRegion).2.inorder = before ++ newRegion :: after) ∧
    ((insertRegion kernel root newRegion).1 ≠ 1 →
      insertRegion kernel root newRegion = (0, root)) := by
  rcases insertRegion_cases hkernel hordered newRegion with
    ⟨hsame, old, hold, haddr⟩ | ⟨before, after, hinorder, hbefore, hafter, hret, hnew⟩
  · rw [hsame]
    refine ⟨⟨by simp, fun hfresh => absurd haddr (hfresh old hold)⟩, by simp, fun _ => rfl⟩
  · refine ⟨⟨fun _ old hold haddr => ?_, fun _ => hret⟩,
      fun _ => ⟨before, after, hinorder, hnew⟩, fun hne => absurd hret hne⟩
    have hstart : old.start = newRegion.start := congrArg BitVec.toNat haddr
    rw [hinorder, List.mem_append] at hold
    rcases hold with hold | hold
    · exact absurd hstart (hbefore old hold).ne
    · exact absurd hstart (hafter old hold).ne'

theorem deleteRegion_keyed {root : RbTree MemoryRegion} (hordered : RegionOrdered root)
    (addr : BitVec 64) :
    ((deleteRegion kernel root addr).1 = 1 ↔ ∃ found, lookupRegion root addr = some found) ∧
    (∀ place region, lookupRegion root addr = some (place, region) →
      region.start ≤ addr.toNat ∧ addr.toNat < region.stop ∧
      ∃ before after, root.inorder = before ++ region :: after ∧ region ∉ before ++ after ∧
        (deleteRegion kernel root addr).2.inorder = before ++ after) ∧
    ((deleteRegion kernel root addr).1 ≠ 1 → deleteRegion kernel root addr = (0, root)) := by
  rcases deleteRegion_cases hkernel root addr with
    ⟨hnone, hsame⟩ | ⟨place, region, before, after, hfound, hinorder, hret, hnew⟩
  · rw [hsame, hnone]
    simp
  · refine ⟨⟨fun _ => ⟨_, hfound⟩, fun _ => hret⟩, ?_, fun hne => absurd hret hne⟩
    intro place' region' hfound'
    obtain ⟨rfl, rfl⟩ : place = place' ∧ region = region' := by
      simpa [hfound] using hfound'
    obtain ⟨_, hstart, hstop⟩ := lookupRegion_within hfound
    exact ⟨hstart, hstop, before, after, hinorder, hordered.not_mem_of_split hinorder, hnew⟩

/-- Over every run: the starts climb, insertion adds exactly its region when its
start is free, and deletion removes exactly the region that lookup finds. -/
theorem runOps_keyedSet (ops : List TreeOp) :
    RegionOrdered (runOps kernel ops) ∧
    (∀ newRegion,
      ((insertRegion kernel (runOps kernel ops) newRegion).1 = 1 ↔
        ∀ old ∈ (runOps kernel ops).inorder, old.addr ≠ newRegion.addr) ∧
      ((insertRegion kernel (runOps kernel ops) newRegion).1 = 1 →
        ∃ before after, (runOps kernel ops).inorder = before ++ after ∧
          (insertRegion kernel (runOps kernel ops) newRegion).2.inorder =
            before ++ newRegion :: after) ∧
      ((insertRegion kernel (runOps kernel ops) newRegion).1 ≠ 1 →
        insertRegion kernel (runOps kernel ops) newRegion = (0, runOps kernel ops))) ∧
    ∀ addr,
      ((deleteRegion kernel (runOps kernel ops) addr).1 = 1 ↔
        ∃ found, lookupRegion (runOps kernel ops) addr = some found) ∧
      (∀ place region, lookupRegion (runOps kernel ops) addr = some (place, region) →
        region.start ≤ addr.toNat ∧ addr.toNat < region.stop ∧
        ∃ before after, (runOps kernel ops).inorder = before ++ region :: after ∧
          region ∉ before ++ after ∧
          (deleteRegion kernel (runOps kernel ops) addr).2.inorder = before ++ after) ∧
      ((deleteRegion kernel (runOps kernel ops) addr).1 ≠ 1 →
        deleteRegion kernel (runOps kernel ops) addr = (0, runOps kernel ops)) := by
  have hordered := runOps_ordered hkernel ops
  exact ⟨hordered, insertRegion_keyed hkernel hordered, deleteRegion_keyed hkernel hordered⟩

end Runs

/-- Overlapping regions and one whose end wraps. -/
theorem runOps_keyedSet_wrapped :
    (runOps bottomUpRbtree
      [.insertRegion ⟨0, 100, 1⟩, .insertRegion ⟨50, 10, 2⟩, .insertRegion ⟨60, -1, 4⟩]).inorder =
        [⟨0, 100, 1⟩, ⟨50, 10, 2⟩, ⟨60, -1, 4⟩] ∧
    ∃ found, lookupRegion (runOps bottomUpRbtree
      [.insertRegion ⟨0, 100, 1⟩, .insertRegion ⟨50, 10, 2⟩, .insertRegion ⟨60, -1, 4⟩]) 55 =
        some found :=
  ⟨by decide, ((runOps_keyedSet bottomUpRbtree_keepsOrder
    [.insertRegion ⟨0, 100, 1⟩, .insertRegion ⟨50, 10, 2⟩,
      .insertRegion ⟨60, -1, 4⟩]).2.2 55).1.mp (by decide)⟩

/-! ## Deleting a region at its own start -/

/-- `delete_region(root, region->addr)` answers 1 and takes away this region alone. -/
def Removes (kernel : KernelRbtree) (root : RbTree MemoryRegion) (region : MemoryRegion) : Prop :=
  (deleteRegion kernel root region.addr).1 = 1 ∧
    ∃ before after, root.inorder = before ++ region :: after ∧
      (deleteRegion kernel root region.addr).2.inorder = before ++ after

theorem removes_iff_lookupRegion {kernel : KernelRbtree} (hkernel : kernel.KeepsOrder)
    {root : RbTree MemoryRegion} (hordered : RegionOrdered root) {region : MemoryRegion} :
    Removes kernel root region ↔
      (lookupRegion root region.addr).map Prod.snd = some region := by
  obtain ⟨hret, hremoved, _⟩ := deleteRegion_keyed hkernel hordered region.addr
  constructor
  · rintro ⟨hone, before, after, hinorder, hnew⟩
    obtain ⟨⟨place, gone⟩, hfound⟩ := hret.mp hone
    obtain ⟨_, _, before', after', hinorder', hfresh, hnew'⟩ := hremoved place gone hfound
    have hgone : gone ∈ before ++ region :: after := by
      rw [← hinorder, hinorder']
      simp
    rw [List.perm_middle.mem_iff, List.mem_cons] at hgone
    rw [hnew'] at hnew
    rw [hfound, hgone.resolve_right (hnew ▸ hfresh)]
    rfl
  · intro hlookup
    obtain ⟨⟨place, found⟩, hfound, rfl⟩ := Option.map_eq_some_iff.mp hlookup
    obtain ⟨_, _, before, after, hinorder, _, hnew⟩ := hremoved place found hfound
    exact ⟨hret.mpr ⟨_, hfound⟩, before, after, hinorder, hnew⟩

/-- The search for a stored region's start passes what is above the region. -/
theorem removes_iff_lookupTurn {kernel : KernelRbtree} (hkernel : kernel.KeepsOrder)
    {root : RbTree MemoryRegion} (hordered : RegionOrdered root) {region : MemoryRegion}
    (hmem : region ∈ root.inorder) :
    Removes kernel root region ↔
      lookupTurn region.addr region = .eq ∧
        ∀ x ∈ root.above region, lookupTurn region.addr x ≠ .eq := by
  have hlater : ∀ x : MemoryRegion, region.start < x.start → lookupTurn region.addr x = .lt :=
    fun x hlt => (lookupTurn_eq_lt_iff region.addr x).mpr hlt
  have hearlier : ∀ x : MemoryRegion, x.start < region.start →
      lookupTurn region.addr x ≠ .lt :=
    fun x hlt hturn => hlt.asymm ((lookupTurn_eq_lt_iff region.addr x).mp hturn)
  rw [removes_iff_lookupRegion hkernel hordered, lookupRegion_data]
  exact RbTree.data?_descend_eq_some_iff hlater hearlier hordered hmem

/-- Insertion goes by the start address and deletion by what covers it: of a region
that is stored, with no end wrapping on the way to it, they agree exactly when the
region is not empty and none above it covers its start. -/
theorem runOps_removes_iff {kernel : KernelRbtree} (hkernel : kernel.KeepsOrder)
    (ops : List TreeOp) {region : MemoryRegion} (hmem : region ∈ (runOps kernel ops).inorder)
    (hfits : ∀ x ∈ region :: (runOps kernel ops).above region,
      x.addr.toNat + x.len.toNat < 2 ^ 64) :
    Removes kernel (runOps kernel ops) region ↔
      region.len ≠ 0 ∧ ∀ x ∈ (runOps kernel ops).above region, ¬x.Covers region.addr := by
  obtain ⟨hregion, habove⟩ := List.forall_mem_cons.mp hfits
  rw [removes_iff_lookupTurn hkernel (runOps_ordered hkernel ops) hmem,
    lookupTurn_eq_iff_covers hregion, MemoryRegion.covers_addr_iff]
  apply and_congr_right
  intro _
  apply forall₂_congr
  intro x hx
  rw [Ne, lookupTurn_eq_iff_covers (habove x hx)]

/-- `bottomUpRbtree` erases without recolouring; the order does not depend on colours. -/
theorem runOps_removes_nested :
    Removes bottomUpRbtree
      (runOps bottomUpRbtree [.insertRegion ⟨50, 10, 2⟩, .insertRegion ⟨0, 100, 1⟩]) ⟨50, 10, 2⟩ :=
  (runOps_removes_iff bottomUpRbtree_keepsOrder
    [.insertRegion ⟨50, 10, 2⟩, .insertRegion ⟨0, 100, 1⟩] (by decide) (by decide)).mpr (by decide)

/-- An empty region stays, and of two that overlap the upper one goes instead.  What is
looked up and what is left does not depend on the colours, which `bottomUpRbtree` does
not mend after erasing. -/
theorem stored_regions_not_removed :
    (⟨0x1000, 0, 1⟩ ∈ (runOps bottomUpRbtree [.insertRegion ⟨0x1000, 0, 1⟩]).inorder ∧
      deleteRegion bottomUpRbtree (runOps bottomUpRbtree [.insertRegion ⟨0x1000, 0, 1⟩]) 0x1000 =
        (0, runOps bottomUpRbtree [.insertRegion ⟨0x1000, 0, 1⟩])) ∧
    (⟨50, 10, 2⟩ ∈ (runOps bottomUpRbtree
        [.insertRegion ⟨0, 100, 1⟩, .insertRegion ⟨50, 10, 2⟩]).inorder ∧
      (deleteRegion bottomUpRbtree (runOps bottomUpRbtree
        [.insertRegion ⟨0, 100, 1⟩, .insertRegion ⟨50, 10, 2⟩]) 50).2.inorder = [⟨50, 10, 2⟩]) ∧
    ¬∀ (ops : List TreeOp) (region : MemoryRegion),
      region ∈ (runOps bottomUpRbtree ops).inorder →
        Removes bottomUpRbtree (runOps bottomUpRbtree ops) region := by
  refine ⟨by decide, by decide, ?_⟩
  intro hall
  obtain ⟨hret, _⟩ := hall [.insertRegion ⟨0x1000, 0, 1⟩] ⟨0x1000, 0, 1⟩ (by decide)
  exact absurd hret (by decide)

/-! ## Regions that lie apart -/

/-- The regions a policy is meant to consist of. -/
structure Apart (root : RbTree MemoryRegion) : Prop where
  nonempty : ∀ region ∈ root.inorder, region.len ≠ 0
  disjoint : PairwiseDisjoint root
  bounded : ∀ region ∈ root.inorder, region.addr.toNat + region.len.toNat < 2 ^ 64

namespace Apart

variable {root : RbTree MemoryRegion} (hapart : Apart root)

include hapart

theorem of_sublist {other : RbTree MemoryRegion}
    (hsub : other.inorder.Sublist root.inorder) : Apart other where
  nonempty region hmem := hapart.nonempty region (hsub.subset hmem)
  disjoint := hapart.disjoint.sublist hsub
  bounded region hmem := hapart.bounded region (hsub.subset hmem)

theorem nonOverlapping (hordered : RegionOrdered root) : NonOverlapping root.inorder := by
  have hboth := List.pairwise_and_iff.mpr ⟨hordered, hapart.disjoint⟩
  refine hboth.imp_of_mem ?_
  intro x y hx hy ⟨hlt, hdisjoint⟩
  refine ⟨hlt, ?_⟩
  rw [MemoryRegion.stop_eq_of_fits (hapart.bounded x hx)]
  unfold MemoryRegion.start at hlt ⊢
  rcases hdisjoint with hempty | hempty | hbefore | hafter
  · exact absurd hempty (hapart.nonempty x hx)
  · exact absurd hempty (hapart.nonempty y hy)
  · exact hbefore
  · omega

theorem covers_unique {x y : MemoryRegion} (hx : x ∈ root.inorder) (hy : y ∈ root.inorder)
    {address : BitVec 64} (hxcovers : x.Covers address) (hycovers : y.Covers address) :
    x = y := by
  by_contra hne
  have hsymm : Std.Symm MemoryRegion.Disjoint := ⟨fun _ _ h => h.symm⟩
  have hdisjoint := hapart.disjoint.forall hx hy hne
  exact MemoryRegion.disjoint_iff_forall_not_covers.mp hdisjoint address ⟨hxcovers, hycovers⟩

/-- Lookup, the tree forgotten. -/
theorem lookupRegion_eq_some_iff (hordered : RegionOrdered root) {address : BitVec 64}
    {region : MemoryRegion} :
    (lookupRegion root address).map Prod.snd = some region ↔
      region ∈ root.inorder ∧ region.Covers address := by
  constructor
  · intro hlookup
    obtain ⟨⟨place, found⟩, hfound, rfl⟩ := Option.map_eq_some_iff.mp hlookup
    exact lookupRegion_sound hfound
  · rintro ⟨hmem, hcovers⟩
    rw [lookupRegion_eq_find? (hapart.nonOverlapping hordered)]
    cases hfind : root.inorder.find? fun region => lookupTurn address region == .eq with
    | none =>
        have hturn := List.find?_eq_none.mp hfind region hmem
        rw [beq_iff_eq, lookupTurn_eq_iff_covers (hapart.bounded region hmem)] at hturn
        exact absurd hcovers hturn
    | some other =>
        have hother := List.mem_of_find?_eq_some hfind
        have hturn := List.find?_some hfind
        rw [beq_iff_eq, lookupTurn_eq_iff_covers (hapart.bounded other hother)] at hturn
        rw [hapart.covers_unique hother hmem hturn hcovers]

theorem lookupRegion_eq_none_iff (hordered : RegionOrdered root) {address : BitVec 64} :
    lookupRegion root address = none ↔ ∀ region ∈ root.inorder, ¬region.Covers address := by
  rw [← Option.map_eq_none_iff (f := Prod.snd), Option.eq_none_iff_forall_ne_some]
  refine forall_congr' fun region => ?_
  rw [Ne, hapart.lookupRegion_eq_some_iff hordered, not_and]

end Apart

/-- Same regions, same answers. -/
theorem lookupRegion_eq_of_mem_iff {first second : RbTree MemoryRegion} (hfirst : Apart first)
    (hsecond : Apart second) (hfirstOrdered : RegionOrdered first)
    (hsecondOrdered : RegionOrdered second) {address : BitVec 64}
    (hmem : ∀ region, region.Covers address →
      (region ∈ first.inorder ↔ region ∈ second.inorder)) :
    (lookupRegion first address).map Prod.snd = (lookupRegion second address).map Prod.snd := by
  refine Option.ext fun region => ?_
  rw [hfirst.lookupRegion_eq_some_iff hfirstOrdered,
    hsecond.lookupRegion_eq_some_iff hsecondOrdered]
  exact and_congr_left fun hcovers => hmem region hcovers

section Runs

variable {kernel : KernelRbtree} (hkernel : kernel.KeepsOrder)

include hkernel

theorem Apart.of_deleteRegion {root : RbTree MemoryRegion} (hapart : Apart root)
    (addr : BitVec 64) : Apart (deleteRegion kernel root addr).2 := by
  rcases deleteRegion_cases hkernel root addr with
    ⟨_, hsame⟩ | ⟨place, region, before, after, _, hinorder, _, hnew⟩
  · rwa [hsame]
  · apply hapart.of_sublist
    rw [hnew, hinorder]
    simp

theorem deleteRegion_found_iff {root : RbTree MemoryRegion} (hordered : RegionOrdered root)
    (hapart : Apart root) (addr : BitVec 64) :
    (deleteRegion kernel root addr).1 = 1 ↔ ∃ region ∈ root.inorder, region.Covers addr := by
  rw [(deleteRegion_keyed hkernel hordered addr).1, ← Option.ne_none_iff_exists', Ne,
    hapart.lookupRegion_eq_none_iff hordered]
  push Not
  rfl

theorem mem_deleteRegion_iff {root : RbTree MemoryRegion} (hordered : RegionOrdered root)
    {addr : BitVec 64} {place : Place} {gone region : MemoryRegion}
    (hfound : lookupRegion root addr = some (place, gone)) :
    region ∈ (deleteRegion kernel root addr).2.inorder ↔
      region ∈ root.inorder ∧ region ≠ gone := by
  obtain ⟨_, _, before, after, hinorder, hfresh, hnew⟩ :=
    (deleteRegion_keyed hkernel hordered addr).2.1 place gone hfound
  rw [hnew, hinorder, List.perm_middle.mem_iff, List.mem_cons]
  constructor
  · intro hmem
    refine ⟨Or.inr hmem, ?_⟩
    rintro rfl
    exact hfresh hmem
  · rintro ⟨hgone | hmem, hne⟩
    · exact absurd hgone hne
    · exact hmem

theorem lookupRegion_deleteRegion_self {root : RbTree MemoryRegion}
    (hordered : RegionOrdered root) (hapart : Apart root) (addr : BitVec 64) :
    lookupRegion (deleteRegion kernel root addr).2 addr = none := by
  rw [(hapart.of_deleteRegion hkernel addr).lookupRegion_eq_none_iff
    (deleteRegion_ordered hkernel hordered addr)]
  cases hlookup : lookupRegion root addr with
  | none =>
      have hsame : deleteRegion kernel root addr = (0, root) := by
        simp [deleteRegion, hlookup]
      rw [hsame]
      exact (hapart.lookupRegion_eq_none_iff hordered).mp hlookup
  | some found =>
      intro region hmem hcovers
      obtain ⟨hregion, hne⟩ := (mem_deleteRegion_iff hkernel hordered hlookup).mp hmem
      obtain ⟨hgone, hgoneCovers⟩ := lookupRegion_sound hlookup
      exact hne (hapart.covers_unique hregion hgone hcovers hgoneCovers)

theorem lookupRegion_deleteRegion_other {root : RbTree MemoryRegion}
    (hordered : RegionOrdered root) (hapart : Apart root) {addr other : BitVec 64}
    (houtside : ∀ place removed, lookupRegion root addr = some (place, removed) →
      ¬removed.Covers other) :
    (lookupRegion (deleteRegion kernel root addr).2 other).map Prod.snd =
      (lookupRegion root other).map Prod.snd := by
  apply lookupRegion_eq_of_mem_iff (hapart.of_deleteRegion hkernel addr) hapart
    (deleteRegion_ordered hkernel hordered addr) hordered
  intro region hcovers
  cases hlookup : lookupRegion root addr with
  | none => simp [deleteRegion, hlookup]
  | some found =>
      rw [mem_deleteRegion_iff hkernel hordered hlookup, and_iff_left]
      rintro rfl
      exact houtside _ _ hlookup hcovers

theorem lookupRegion_insert_delete {root : RbTree MemoryRegion} (hordered : RegionOrdered root)
    {newRegion : MemoryRegion} (hapart : Apart (insertRegion kernel root newRegion).2)
    (hret : (insertRegion kernel root newRegion).1 = 1) {addr : BitVec 64}
    (hcovers : newRegion.Covers addr) (other : BitVec 64) :
    (lookupRegion
        (deleteRegion kernel (insertRegion kernel root newRegion).2 addr).2
        other).map Prod.snd =
      (lookupRegion root other).map Prod.snd := by
  obtain ⟨before, after, hinorder, hnew⟩ := (insertRegion_keyed hkernel hordered newRegion).2.1 hret
  have hafterOrdered := insertRegion_ordered hkernel hordered newRegion
  have hroot : Apart root := hapart.of_sublist (by rw [hnew, hinorder]; simp)
  have hfound : (lookupRegion (insertRegion kernel root newRegion).2 addr).map Prod.snd =
      some newRegion :=
    (hapart.lookupRegion_eq_some_iff hafterOrdered).mpr ⟨by rw [hnew]; simp, hcovers⟩
  obtain ⟨⟨place, gone⟩, hlookup, rfl⟩ := Option.map_eq_some_iff.mp hfound
  have hfresh := hafterOrdered.not_mem_of_split hnew
  apply lookupRegion_eq_of_mem_iff (hapart.of_deleteRegion hkernel addr) hroot
    (deleteRegion_ordered hkernel hafterOrdered addr) hordered
  intro region _
  rw [mem_deleteRegion_iff hkernel hafterOrdered hlookup, hnew, hinorder,
    List.perm_middle.mem_iff, List.mem_cons]
  constructor
  · rintro ⟨hgone | hmem, hne⟩
    · exact absurd hgone hne
    · exact hmem
  · intro hmem
    refine ⟨Or.inr hmem, ?_⟩
    rintro rfl
    exact hfresh hmem

/-- Deletion takes away what the region found at the address covers, and an
insertion is undone by deleting anywhere inside its region. -/
theorem deleteRegion_frame {ops : List TreeOp} (hapart : Apart (runOps kernel ops)) :
    (∀ addr,
      ((deleteRegion kernel (runOps kernel ops) addr).1 = 1 ↔
        ∃ region ∈ (runOps kernel ops).inorder, region.Covers addr) ∧
      lookupRegion (deleteRegion kernel (runOps kernel ops) addr).2 addr = none ∧
      ∀ other, (∀ place removed, lookupRegion (runOps kernel ops) addr = some (place, removed) →
          ¬removed.Covers other) →
        (lookupRegion (deleteRegion kernel (runOps kernel ops) addr).2 other).map Prod.snd =
          (lookupRegion (runOps kernel ops) other).map Prod.snd) ∧
    ∀ newRegion, (insertRegion kernel (runOps kernel ops) newRegion).1 = 1 →
      Apart (insertRegion kernel (runOps kernel ops) newRegion).2 →
      ∀ addr, newRegion.Covers addr → ∀ other,
        (lookupRegion
            (deleteRegion kernel (insertRegion kernel (runOps kernel ops) newRegion).2 addr).2
            other).map Prod.snd =
          (lookupRegion (runOps kernel ops) other).map Prod.snd := by
  have hordered := runOps_ordered hkernel ops
  constructor
  · intro addr
    refine ⟨deleteRegion_found_iff hkernel hordered hapart addr,
      lookupRegion_deleteRegion_self hkernel hordered hapart addr, ?_⟩
    intro other houtside
    exact lookupRegion_deleteRegion_other hkernel hordered hapart houtside
  · intro newRegion hret hnewApart addr hcovers other
    exact lookupRegion_insert_delete hkernel hordered hnewApart hret hcovers other

end Runs

/-- The tree after `bottomUpRbtree` has erased is searched; its colours are not mended
and do not matter. -/
theorem deleteRegion_frame_adjacent :
    (runOps bottomUpRbtree [.insertRegion ⟨0, 16, 1⟩, .insertRegion ⟨16, 16, 2⟩]).inorder =
        [⟨0, 16, 1⟩, ⟨16, 16, 2⟩] ∧
    lookupRegion (deleteRegion bottomUpRbtree
      (runOps bottomUpRbtree [.insertRegion ⟨0, 16, 1⟩, .insertRegion ⟨16, 16, 2⟩]) 3).2 3 =
        none := by
  have hinorder : (runOps bottomUpRbtree
      [.insertRegion ⟨0, 16, 1⟩, .insertRegion ⟨16, 16, 2⟩]).inorder =
        [⟨0, 16, 1⟩, ⟨16, 16, 2⟩] := by
    decide
  have hapart : Apart (runOps bottomUpRbtree
      [.insertRegion ⟨0, 16, 1⟩, .insertRegion ⟨16, 16, 2⟩]) :=
    ⟨by rw [hinorder]; decide, by decide, by rw [hinorder]; decide⟩
  exact ⟨hinorder, ((deleteRegion_frame bottomUpRbtree_keepsOrder hapart).1 3).2.1⟩

end Carat

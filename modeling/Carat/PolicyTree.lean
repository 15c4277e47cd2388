import Carat.SteeredInsertion
import Carat.IntervalSearch

/-!
# Policy regions in a red-black tree

`lookup_region`, `insert_region` and `delete_region` over the tree of
`memory_region_t` records.  The loops of the first two are one descent with two
different steerings: insertion compares start addresses only, whereas lookup
also looks at an end which is computed modulo `2 ^ 64`.

A pointer to a record is the place of its node together with the contents.
-/

namespace Carat

open SteeredTree

/-- `memory_region_t`, less the `rb_node` which the tree itself supplies. -/
structure MemoryRegion where
  addr : BitVec 64
  len : BitVec 64
  protect : BitVec 8
  deriving DecidableEq, Repr

namespace MemoryRegion

def start (region : MemoryRegion) : ℕ := region.addr.toNat

/-- The end that `lookup_region` computes; the sum wraps. -/
def stop (region : MemoryRegion) : ℕ := (region.addr + region.len).toNat

/-- Membership in the exact integer interval `[addr, addr + len)`. -/
def Covers (region : MemoryRegion) (address : BitVec 64) : Prop :=
  region.addr.toNat ≤ address.toNat ∧
    address.toNat < region.addr.toNat + region.len.toNat

instance (region : MemoryRegion) (address : BitVec 64) :
    Decidable (region.Covers address) :=
  inferInstanceAs (Decidable (_ ∧ _))

/-- Two regions share no address, as exact integer intervals. -/
def Disjoint (first second : MemoryRegion) : Prop :=
  first.len = 0 ∨ second.len = 0 ∨
    first.addr.toNat + first.len.toNat ≤ second.addr.toNat ∨
    second.addr.toNat + second.len.toNat ≤ first.addr.toNat

instance (first second : MemoryRegion) : Decidable (first.Disjoint second) :=
  inferInstanceAs (Decidable (_ ∨ _ ∨ _ ∨ _))

theorem Disjoint.symm {first second : MemoryRegion}
    (hdisjoint : first.Disjoint second) : second.Disjoint first := by
  unfold Disjoint at hdisjoint ⊢
  tauto

theorem disjoint_iff_forall_not_covers {first second : MemoryRegion} :
    first.Disjoint second ↔
      ∀ address, ¬(first.Covers address ∧ second.Covers address) := by
  constructor
  · intro hdisjoint address hboth
    unfold Disjoint at hdisjoint
    unfold Covers at hboth
    rcases hdisjoint with h | h | h | h
    · simp [h] at hboth
      omega
    · simp [h] at hboth
      omega
    · omega
    · omega
  · intro hnone
    by_contra hmeet
    unfold Disjoint at hmeet
    push Not at hmeet
    obtain ⟨hfirstPos, hsecondPos, hfirstPast, hsecondPast⟩ := hmeet
    have hfirstLen : 0 < first.len.toNat := by bv_omega
    have hsecondLen : 0 < second.len.toNat := by bv_omega
    -- the later of the two starts is a common address
    rcases le_total first.addr.toNat second.addr.toNat with hle | hle
    · exact hnone second.addr ⟨⟨hle, hfirstPast⟩, le_rfl, by omega⟩
    · exact hnone first.addr ⟨⟨le_rfl, by omega⟩, hle, hsecondPast⟩

theorem covers_addr_iff {region : MemoryRegion} :
    region.Covers region.addr ↔ region.len ≠ 0 := by
  rw [Ne, ← BitVec.toNat_inj, Covers]
  simp [Nat.pos_iff_ne_zero]

/-- A wrapped end never lies past the start, so it never invents coverage. -/
theorem covers_of_lt_stop {region : MemoryRegion} {address : BitVec 64}
    (hstart : region.start ≤ address.toNat) (hstop : address.toNat < region.stop) :
    region.Covers address := by
  refine ⟨hstart, ?_⟩
  unfold stop at hstop
  rw [BitVec.toNat_add] at hstop
  exact hstop.trans_le (Nat.mod_le _ _)

theorem stop_eq_of_fits {region : MemoryRegion}
    (hfits : region.addr.toNat + region.len.toNat < 2 ^ 64) :
    region.stop = region.addr.toNat + region.len.toNat := by
  unfold stop
  rw [BitVec.toNat_add, Nat.mod_eq_of_lt hfits]

end MemoryRegion

/-! ## `lookup_region` -/

/-- The body of the search loop: which way to go at a region. -/
def lookupTurn (lookupAddr : BitVec 64) (data : MemoryRegion) : Ordering :=
  let start := data.addr
  let endAddr := data.addr + data.len
  if lookupAddr < start then .lt
  else if lookupAddr ≥ endAddr then .gt
  else .eq

def lookupRegion (root : RbTree MemoryRegion) (lookupAddr : BitVec 64) :
    Option (Place × MemoryRegion) :=
  match root.descend (lookupTurn lookupAddr) with
  | .found place data => some (place, data)
  | .vacant _ => none

theorem lookupTurn_eq_intervalSteer (lookupAddr : BitVec 64) :
    lookupTurn lookupAddr =
      intervalSteer MemoryRegion.start MemoryRegion.stop lookupAddr.toNat := by
  funext data
  simp only [lookupTurn, intervalSteer, MemoryRegion.start, MemoryRegion.stop,
    BitVec.lt_def, ge_iff_le, BitVec.le_def]
  congr

theorem lookupTurn_eq_iff_covers {region : MemoryRegion}
    (hfits : region.addr.toNat + region.len.toNat < 2 ^ 64) (lookupAddr : BitVec 64) :
    lookupTurn lookupAddr region = .eq ↔ region.Covers lookupAddr := by
  rw [lookupTurn_eq_intervalSteer, intervalSteer_eq_eq, MemoryRegion.stop_eq_of_fits hfits]
  rfl

theorem lookupTurn_eq_lt_iff (lookupAddr : BitVec 64) (region : MemoryRegion) :
    lookupTurn lookupAddr region = .lt ↔ lookupAddr.toNat < region.start := by
  rw [lookupTurn_eq_intervalSteer, intervalSteer_eq_lt]

theorem lookupRegion_data (root : RbTree MemoryRegion) (lookupAddr : BitVec 64) :
    (lookupRegion root lookupAddr).map Prod.snd =
      (root.descend (lookupTurn lookupAddr)).data? := by
  unfold lookupRegion
  cases root.descend (lookupTurn lookupAddr) <;> rfl

theorem lookupRegion_within {root : RbTree MemoryRegion} {lookupAddr : BitVec 64}
    {place : Place} {region : MemoryRegion}
    (hlookup : lookupRegion root lookupAddr = some (place, region)) :
    region ∈ root.inorder ∧
      region.start ≤ lookupAddr.toNat ∧ lookupAddr.toNat < region.stop := by
  unfold lookupRegion at hlookup
  cases hdescend : root.descend (lookupTurn lookupAddr) with
  | vacant place' => simp [hdescend] at hlookup
  | found place' data =>
      simp only [hdescend, Option.some.injEq, Prod.mk.injEq] at hlookup
      obtain ⟨rfl, rfl⟩ := hlookup
      obtain ⟨hmem, hturn⟩ := RbTree.mem_inorder_of_descend_found hdescend
      rw [lookupTurn_eq_intervalSteer, intervalSteer_eq_eq] at hturn
      exact ⟨hmem, hturn⟩

/-- Whatever lookup returns is a region of the tree and truly covers the
address, whatever the tree looks like. -/
theorem lookupRegion_sound {root : RbTree MemoryRegion} {lookupAddr : BitVec 64}
    {place : Place} {region : MemoryRegion}
    (hlookup : lookupRegion root lookupAddr = some (place, region)) :
    region ∈ root.inorder ∧ region.Covers lookupAddr := by
  obtain ⟨hmem, hstart, hstop⟩ := lookupRegion_within hlookup
  exact ⟨hmem, MemoryRegion.covers_of_lt_stop hstart hstop⟩

/-- No region reaches past the start of a later one; ends are the wrapped ones
of `lookup_region`. -/
def NonOverlapping (regions : List MemoryRegion) : Prop :=
  Staircase MemoryRegion.start MemoryRegion.stop regions

/-- Over a non-overlapping tree, lookup is a scan of the in-order sequence. -/
theorem lookupRegion_eq_find? {root : RbTree MemoryRegion}
    (hstairs : NonOverlapping root.inorder) (lookupAddr : BitVec 64) :
    (lookupRegion root lookupAddr).map Prod.snd =
      root.inorder.find? fun region => lookupTurn lookupAddr region == .eq := by
  rw [lookupRegion_data]
  apply RbTree.data?_descend_eq_find?
  rw [lookupTurn_eq_intervalSteer]
  exact hstairs.sharp lookupAddr.toNat

/-! ## `insert_region` -/

def insertTurn (newAddr : BitVec 64) (currRegion : MemoryRegion) : Ordering :=
  let currAddr := currRegion.addr
  if currAddr > newAddr then .lt
  else if currAddr < newAddr then .gt
  else .eq

def insertRegion (kernel : KernelRbtree) (root : RbTree MemoryRegion)
    (newRegion : MemoryRegion) : ℤ × RbTree MemoryRegion :=
  match root.descend (insertTurn newRegion.addr) with
  | .found _ _ => (0, root)
  | .vacant link =>
      (1, kernel.rbInsertColor (root.linkNode newRegion link) link)

theorem insertTurn_eq_keySteer (newAddr : BitVec 64) :
    insertTurn newAddr = keySteer MemoryRegion.start newAddr.toNat := by
  funext region
  simp only [insertTurn, keySteer, MemoryRegion.start, gt_iff_lt, BitVec.lt_def]
  congr

theorem insertRegion_eq_insertBy (kernel : KernelRbtree) (root : RbTree MemoryRegion)
    (newRegion : MemoryRegion) :
    insertRegion kernel root newRegion =
      match insertBy kernel (insertTurn newRegion.addr) newRegion root with
      | none => (0, root)
      | some grown => (1, grown) := by
  unfold insertRegion insertBy
  cases root.descend (insertTurn newRegion.addr) <;> rfl

/-- The order that insertion maintains: strictly increasing start addresses. -/
abbrev RegionOrdered (root : RbTree MemoryRegion) : Prop :=
  KeyOrdered MemoryRegion.start root.inorder

theorem regionOrdered_nil : RegionOrdered .nil := List.Pairwise.nil

section Operations

variable {kernel : KernelRbtree} (hkernel : kernel.KeepsOrder)

include hkernel in
/-- Everything an insertion can do to an ordered tree. -/
theorem insertRegion_cases {root : RbTree MemoryRegion}
    (hordered : RegionOrdered root) (newRegion : MemoryRegion) :
    (insertRegion kernel root newRegion = (0, root) ∧
      ∃ old ∈ root.inorder, old.addr = newRegion.addr) ∨
    ∃ before after,
      root.inorder = before ++ after ∧
      (∀ x ∈ before, x.start < newRegion.start) ∧
      (∀ x ∈ after, newRegion.start < x.start) ∧
      (insertRegion kernel root newRegion).1 = 1 ∧
      (insertRegion kernel root newRegion).2.inorder =
        before ++ newRegion :: after := by
  have hsharp : Sharp (insertTurn newRegion.addr) root.inorder := by
    rw [insertTurn_eq_keySteer]
    exact hordered.sharp _
  rw [insertRegion_eq_insertBy]
  rcases insertBy_cases hkernel hsharp newRegion with
    ⟨hnone, old, hmem, hturn⟩ |
      ⟨grown, before, after, hsome, hinorder, hbefore, hafter, hnew⟩
  · left
    rw [insertTurn_eq_keySteer, keySteer_eq_eq] at hturn
    exact ⟨by rw [hnone], old, hmem, BitVec.eq_of_toNat_eq hturn⟩
  · right
    rw [hsome]
    refine ⟨before, after, hinorder, ?_, ?_, rfl, hnew⟩
    · intro x hx
      have hturn := hbefore x hx
      rwa [insertTurn_eq_keySteer, keySteer_eq_gt] at hturn
    · intro x hx
      have hturn := hafter x hx
      rwa [insertTurn_eq_keySteer, keySteer_eq_lt] at hturn

include hkernel in
theorem insertRegion_ordered {root : RbTree MemoryRegion}
    (hordered : RegionOrdered root) (newRegion : MemoryRegion) :
    RegionOrdered (insertRegion kernel root newRegion).2 := by
  rcases insertRegion_cases hkernel hordered newRegion with
    ⟨hsame, _⟩ | ⟨before, after, hinorder, hbefore, hafter, _, hnew⟩
  · rwa [hsame]
  · rw [RegionOrdered, hnew]
    apply keyOrdered_insert _ hbefore hafter
    rwa [← hinorder]

include hkernel in
/-- A region whose start address is taken is refused, whatever it spans. -/
theorem insertRegion_refused {root : RbTree MemoryRegion}
    (hordered : RegionOrdered root) {newRegion : MemoryRegion}
    (htaken : ∃ old ∈ root.inorder, old.addr = newRegion.addr) :
    insertRegion kernel root newRegion = (0, root) := by
  obtain ⟨old, hmem, haddr⟩ := htaken
  rcases insertRegion_cases hkernel hordered newRegion with
    ⟨hsame, _⟩ | ⟨before, after, hinorder, hbefore, hafter, _, _⟩
  · exact hsame
  · have hstart : old.start = newRegion.start := congrArg BitVec.toNat haddr
    rw [hinorder, List.mem_append] at hmem
    rcases hmem with hmem | hmem
    · exact absurd hstart (hbefore old hmem).ne
    · exact absurd hstart (hafter old hmem).ne'

include hkernel in
theorem insertRegion_accepted {root : RbTree MemoryRegion}
    (hordered : RegionOrdered root) {newRegion : MemoryRegion}
    (hfresh : ∀ old ∈ root.inorder, old.addr ≠ newRegion.addr) :
    (insertRegion kernel root newRegion).1 = 1 ∧
      (insertRegion kernel root newRegion).2.inorder.Perm
        (newRegion :: root.inorder) := by
  rcases insertRegion_cases hkernel hordered newRegion with
    ⟨_, old, hmem, haddr⟩ | ⟨before, after, hinorder, _, _, hret, hnew⟩
  · exact absurd haddr (hfresh old hmem)
  · refine ⟨hret, ?_⟩
    rw [hnew, hinorder]
    exact List.perm_middle

end Operations

/-! ## `delete_region` -/

def deleteRegion (kernel : KernelRbtree) (root : RbTree MemoryRegion)
    (addr : BitVec 64) : ℤ × RbTree MemoryRegion :=
  match lookupRegion root addr with
  | some (foundRegion, _) => (1, kernel.rbErase root foundRegion)
  | none => (0, root)

theorem deleteRegion_cases {kernel : KernelRbtree} (hkernel : kernel.KeepsOrder)
    (root : RbTree MemoryRegion) (addr : BitVec 64) :
    (lookupRegion root addr = none ∧ deleteRegion kernel root addr = (0, root)) ∨
    ∃ place region before after,
      lookupRegion root addr = some (place, region) ∧
      root.inorder = before ++ region :: after ∧
      (deleteRegion kernel root addr).1 = 1 ∧
      (deleteRegion kernel root addr).2.inorder = before ++ after := by
  cases hdescend : root.descend (lookupTurn addr) with
  | vacant place =>
      left
      simp [lookupRegion, deleteRegion, hdescend]
  | found place region =>
      right
      obtain ⟨_, before, after, hnode⟩ := RbTree.nodeAt_of_descend_found hdescend
      refine ⟨place, region, before, after, ?_, RbTree.inorder_of_nodeAt hnode, ?_, ?_⟩
      · simp [lookupRegion, hdescend]
      · simp [lookupRegion, deleteRegion, hdescend]
      · simp [lookupRegion, deleteRegion, hdescend, hkernel.erase hnode]

theorem deleteRegion_ordered {kernel : KernelRbtree} (hkernel : kernel.KeepsOrder)
    {root : RbTree MemoryRegion} (hordered : RegionOrdered root)
    (addr : BitVec 64) :
    RegionOrdered (deleteRegion kernel root addr).2 := by
  rcases deleteRegion_cases hkernel root addr with
    ⟨_, hsame⟩ | ⟨place, region, before, after, _, hinorder, _, hnew⟩
  · rwa [hsame]
  · rw [RegionOrdered, hnew]
    rw [RegionOrdered, hinorder] at hordered
    exact keyOrdered_erase hordered

end Carat

import Carat.PolicyModule

/-!
# More permissions, same search

Neither insertion nor lookup looks at `protect`.  Two lists which place their
regions alike are therefore built into trees of one shape, whatever permissions
they carry: both trees are readings of a single tree of region pairs.  A lookup
comes to the same pair in either, and where one list grants at least what the
other does, so does every verdict.
-/

namespace Carat

open SteeredTree

/-! ## Sets of permission bits -/

/-- Every bit of the first is set in the second. -/
def BitsWithin {w : ℕ} (bits mask : BitVec w) : Prop := bits &&& mask = bits

instance {w : ℕ} (bits mask : BitVec w) : Decidable (BitsWithin bits mask) :=
  inferInstanceAs (Decidable (_ = _))

theorem BitsWithin.trans {w : ℕ} {first second third : BitVec w}
    (hfirst : BitsWithin first second) (hsecond : BitsWithin second third) :
    BitsWithin first third := by
  unfold BitsWithin at hfirst hsecond ⊢
  calc
    first &&& third = first &&& second &&& third := by rw [hfirst]
    _ = first &&& (second &&& third) := BitVec.and_assoc _ _ _
    _ = first := by rw [hsecond, hfirst]

theorem BitsWithin.setWidth {v w : ℕ} {bits mask : BitVec v} (hwithin : BitsWithin bits mask) :
    BitsWithin (bits.setWidth w) (mask.setWidth w) := by
  unfold BitsWithin at hwithin ⊢
  rw [← BitVec.setWidth_and, hwithin]

theorem checkProtections_iff_bitsWithin (access : BitVec 32) (flags : BitVec 8) :
    checkProtections access flags = true ↔ BitsWithin access (flags.setWidth 32) :=
  beq_iff_eq

/-- An access that asks for less of a region that grants more. -/
theorem checkProtections_mono {access access' : BitVec 32} {flags flags' : BitVec 8}
    (haccess : BitsWithin access' access) (hflags : BitsWithin flags flags')
    (hcheck : checkProtections access flags = true) :
    checkProtections access' flags' = true := by
  rw [checkProtections_iff_bitsWithin] at hcheck ⊢
  exact (haccess.trans hcheck).trans hflags.setWidth

/-! ## Two lists, one shape -/

/-- The same place, and at least the same permissions. -/
structure PolicyNode.Loosens (node looser : PolicyNode) : Prop where
  addr : node.addr = looser.addr
  len : node.len = looser.len
  flags : BitsWithin node.flags looser.flags

/-- A region under two permissions, one within the other. -/
structure RegionPair where
  strict : MemoryRegion
  loose : MemoryRegion
  addr : strict.addr = loose.addr
  len : strict.len = loose.len
  protect : BitsWithin strict.protect loose.protect

theorem exists_regionPairs {first second : List PolicyNode}
    (hlists : List.Forall₂ PolicyNode.Loosens first second) :
    ∃ pairs : List RegionPair,
      pairs.map RegionPair.strict = first.map PolicyNode.toRegion ∧
        pairs.map RegionPair.loose = second.map PolicyNode.toRegion := by
  induction hlists with
  | nil => exact ⟨[], rfl, rfl⟩
  | @cons node looser _ _ hhead _ ih =>
      obtain ⟨pairs, hstrict, hloose⟩ := ih
      refine ⟨⟨node.toRegion, looser.toRegion, hhead.addr, hhead.len, hhead.flags⟩ :: pairs,
        ?_, ?_⟩
      · rw [List.map_cons, List.map_cons, hstrict]
      · rw [List.map_cons, List.map_cons, hloose]

theorem lookupTurn_strict_eq_loose (lookupAddr : BitVec 64) :
    lookupTurn lookupAddr ∘ RegionPair.strict = lookupTurn lookupAddr ∘ RegionPair.loose := by
  funext pair
  simp only [lookupTurn, Function.comp_apply, pair.addr, pair.len]

theorem insertTurn_strict_eq_loose :
    (fun pair : RegionPair => insertTurn pair.strict.addr ∘ RegionPair.strict) =
      fun pair => insertTurn pair.loose.addr ∘ RegionPair.loose := by
  funext pair other
  simp only [insertTurn, Function.comp_apply, pair.addr, other.addr]

/-- A tree that reads, on either side, as what `list_to_tree` builds. -/
theorem exists_pairTree {kernel : KernelRbtree} (hshape : kernel.ShapeOnly)
    {first second : List PolicyNode} (hlists : List.Forall₂ PolicyNode.Loosens first second) :
    ∃ tree : RbTree RegionPair,
      tree.map RegionPair.strict = listToTree kernel .nil first ∧
        tree.map RegionPair.loose = listToTree kernel .nil second := by
  obtain ⟨pairs, hstrict, hloose⟩ := exists_regionPairs hlists
  refine ⟨insertAll kernel
    (fun pair => insertTurn pair.strict.addr ∘ RegionPair.strict) .nil pairs, ?_, ?_⟩
  · rw [map_insertAll hshape RegionPair.strict (fun region => insertTurn region.addr), hstrict,
      RbTree.map_nil, listToTree_eq_insertAll]
  · rw [insertTurn_strict_eq_loose,
      map_insertAll hshape RegionPair.loose (fun region => insertTurn region.addr), hloose,
      RbTree.map_nil, listToTree_eq_insertAll]

/-- Both lookups come to one pair, or both fall off. -/
theorem exists_lookup_pair {kernel : KernelRbtree} (hshape : kernel.ShapeOnly)
    {first second : List PolicyNode} (hlists : List.Forall₂ PolicyNode.Loosens first second)
    (lookupAddr : BitVec 64) :
    ∃ found : Option RegionPair,
      (lookupRegion (listToTree kernel .nil first) lookupAddr).map Prod.snd =
          found.map RegionPair.strict ∧
        (lookupRegion (listToTree kernel .nil second) lookupAddr).map Prod.snd =
          found.map RegionPair.loose := by
  obtain ⟨tree, hstrict, hloose⟩ := exists_pairTree hshape hlists
  refine ⟨(tree.descend (lookupTurn lookupAddr ∘ RegionPair.strict)).data?, ?_, ?_⟩
  · rw [lookupRegion_data, ← hstrict, RbTree.data?_descend_map]
  · rw [lookupRegion_data, ← hloose, RbTree.data?_descend_map, lookupTurn_strict_eq_loose]

/-! ## Verdicts -/

theorem guardVerdict_noPolicy_iff (flags : BitVec 32) (found : Option MemoryRegion) :
    guardVerdict flags found = .noPolicy ↔ found = none := by
  cases found with
  | none => simp [guardVerdict]
  | some region =>
      cases hcheck : checkProtections flags region.protect <;> simp [guardVerdict, hcheck]

/-- Asking for less under a policy that grants more keeps "no policy" as it was and
"allowed" where it was. -/
theorem texasGuard_permissions_mono {kernel : KernelRbtree} (hshape : kernel.ShapeOnly)
    {first second : List PolicyNode} (hlists : List.Forall₂ PolicyNode.Loosens first second)
    (ptr : BitVec 64) {flags flags' : BitVec 32} (hflags : BitsWithin flags' flags) :
    (texasGuard (publishedPolicy kernel second) ptr flags' = .returns .noPolicy ↔
      texasGuard (publishedPolicy kernel first) ptr flags = .returns .noPolicy) ∧
    (texasGuard (publishedPolicy kernel first) ptr flags = .returns .allowed →
      texasGuard (publishedPolicy kernel second) ptr flags' = .returns .allowed) := by
  obtain ⟨found, hstrict, hloose⟩ := exists_lookup_pair hshape hlists ptr
  simp only [texasGuard, publishedPolicy, hstrict, hloose, Outcome.returns.injEq,
    guardVerdict_noPolicy_iff, guardVerdict_allowed_iff, Option.map_eq_none_iff, true_and]
  rintro ⟨region, hregion, hcheck⟩
  obtain ⟨pair, rfl, rfl⟩ := Option.map_eq_some_iff.mp hregion
  exact ⟨pair.loose, rfl, checkProtections_mono hflags pair.protect hcheck⟩

/-- Overlapping regions, a start that occurs twice and an end that wraps. -/
theorem texasGuard_permissions_overlapping :
    texasGuard (publishedPolicy bottomUpRbtree
      [⟨0, 100, 3⟩, ⟨50, 10, 7⟩, ⟨50, 20, 1⟩, ⟨200, -1, 1⟩]) 55 2 = .returns .allowed := by
  have hlists : List.Forall₂ PolicyNode.Loosens
      [⟨0, 100, 1⟩, ⟨50, 10, 3⟩, ⟨50, 20, 1⟩, ⟨200, -1, 0⟩]
      [⟨0, 100, 3⟩, ⟨50, 10, 7⟩, ⟨50, 20, 1⟩, ⟨200, -1, 1⟩] :=
    .cons ⟨rfl, rfl, by decide⟩ (.cons ⟨rfl, rfl, by decide⟩
      (.cons ⟨rfl, rfl, by decide⟩ (.cons ⟨rfl, rfl, by decide⟩ .nil)))
  have hflags : BitsWithin (2 : BitVec 32) 3 := by decide
  exact (texasGuard_permissions_mono bottomUpRbtree_shapeOnly hlists 55 hflags).2 (by decide)

end Carat

import Carat.PolicyModule

/-!
# The guard against a plain scan of the node list

A policy is a list of intervals with flags, and the guard's purpose is to answer
as a scan of that list would.  Below, the tree is first reduced to its content:
over a list whose regions do not run into each other, `lookup_region` on the
published tree finds what a scan of the list finds, whatever shape the
rebalancing gave the tree.  Soundness of a verdict needs no such condition.
-/

namespace Carat

open SteeredTree FirstByKey

/-- Every bit of the access is among the node's zero-extended flags. -/
def PolicyNode.Permits (node : PolicyNode) (flags : BitVec 32) : Prop :=
  ∀ i : Fin 32, flags.getLsbD i = true → (node.flags.setWidth 32).getLsbD i = true

instance (node : PolicyNode) (flags : BitVec 32) : Decidable (node.Permits flags) :=
  inferInstanceAs (Decidable (∀ _ : Fin 32, _))

/-- `addr ≤ address < addr + len` in exact integers. -/
def PolicyNode.Covers (node : PolicyNode) (address : BitVec 64) : Prop :=
  node.addr.toNat ≤ address.toNat ∧
    address.toNat < node.addr.toNat + node.len.toNat

instance (node : PolicyNode) (address : BitVec 64) : Decidable (node.Covers address) :=
  inferInstanceAs (Decidable (_ ∧ _))

/-- The reference: look through the list for a node that covers the address. -/
def scanGuard (nodes : List PolicyNode) (address : BitVec 64) (flags : BitVec 32) :
    GuardOutcome :=
  match nodes.find? fun node => node.Covers address with
  | none => .noPolicy
  | some node => if node.Permits flags then .allowed else .disallowed

theorem checkProtections_iff_permits (flags : BitVec 32) (node : PolicyNode) :
    checkProtections flags node.toRegion.protect = true ↔ node.Permits flags := by
  rw [checkProtections_iff]
  constructor
  · intro hbits i
    exact hbits i
  · intro hbits i hi
    have hlt : i < 32 := BitVec.lt_of_getLsbD hi
    exact hbits ⟨i, hlt⟩ hi

theorem guardVerdict_find? (nodes : List PolicyNode) (address : BitVec 64)
    (flags : BitVec 32) :
    guardVerdict flags
        ((nodes.find? fun node => node.Covers address).map PolicyNode.toRegion) =
      scanGuard nodes address flags := by
  unfold scanGuard
  cases nodes.find? fun node => node.Covers address with
  | none => rfl
  | some node =>
      simp only [Option.map_some, guardVerdict]
      by_cases hpermits : node.Permits flags
      · have hcheck := (checkProtections_iff_permits flags node).mpr hpermits
        simp [hcheck, hpermits]
      · have hcheck : checkProtections flags node.toRegion.protect = false := by
          rw [← Bool.not_eq_true, checkProtections_iff_permits]
          exact hpermits
        simp [hcheck, hpermits]

/-! ## Verdicts are always sound -/

section Published

variable {kernel : KernelRbtree} (hkernel : kernel.KeepsOrder)

include hkernel

theorem publishedPolicy_ordered (nodes : List PolicyNode) :
    RegionOrdered (listToTree kernel .nil nodes) :=
  listToTree_ordered hkernel regionOrdered_nil nodes

theorem lookupRegion_listToTree_sound {nodes : List PolicyNode}
    {address : BitVec 64} {region : MemoryRegion}
    (hlookup : (lookupRegion (listToTree kernel .nil nodes) address).map Prod.snd =
      some region) :
    ∃ node ∈ nodes, node.toRegion = region ∧ node.Covers address := by
  obtain ⟨⟨place, found⟩, hfound, rfl⟩ := Option.map_eq_some_iff.mp hlookup
  obtain ⟨hmem, hcovers⟩ := lookupRegion_sound hfound
  obtain ⟨node, hnode, rfl⟩ :=
    List.mem_map.mp ((inorder_listToTree_perm_firstNodes hkernel nodes).mem_iff.mp hmem)
  exact ⟨node, (firstByKey_sublist nodes).subset hnode, rfl, hcovers⟩

/-- For any list at all: an allowed access is covered by a node that permits
it, a disallowed one by a node that does not. -/
theorem texasGuard_verdict_sound (nodes : List PolicyNode) (address : BitVec 64)
    (flags : BitVec 32) :
    (texasGuard (publishedPolicy kernel nodes) address flags = .returns .allowed →
      ∃ node ∈ nodes, node.Covers address ∧ node.Permits flags) ∧
    (texasGuard (publishedPolicy kernel nodes) address flags = .returns .disallowed →
      ∃ node ∈ nodes, node.Covers address ∧ ¬node.Permits flags) := by
  constructor
  · intro hallowed
    simp only [texasGuard, publishedPolicy, Outcome.returns.injEq,
      guardVerdict_allowed_iff] at hallowed
    obtain ⟨region, hlookup, hcheck⟩ := hallowed
    obtain ⟨node, hnode, rfl, hcovers⟩ :=
      lookupRegion_listToTree_sound hkernel hlookup
    exact ⟨node, hnode, hcovers, (checkProtections_iff_permits flags node).mp hcheck⟩
  · intro hdisallowed
    simp only [texasGuard, publishedPolicy, Outcome.returns.injEq,
      guardVerdict_disallowed_iff] at hdisallowed
    obtain ⟨region, hlookup, hcheck⟩ := hdisallowed
    obtain ⟨node, hnode, rfl, hcovers⟩ :=
      lookupRegion_listToTree_sound hkernel hlookup
    refine ⟨node, hnode, hcovers, ?_⟩
    rw [← checkProtections_iff_permits, hcheck]
    simp

end Published

theorem texasGuard_verdict_sound_overlapping :
    ∃ node ∈ [(⟨0, 100, 1⟩ : PolicyNode), ⟨50, 10, 2⟩, ⟨60, -1, 4⟩],
      node.Covers 55 ∧ ¬node.Permits 1 :=
  (texasGuard_verdict_sound bottomUpRbtree_keepsOrder
    [⟨0, 100, 1⟩, ⟨50, 10, 2⟩, ⟨60, -1, 4⟩] 55 1).2 (by decide)

/-! ## Lists that do not run into each other -/

/-- Distinct starts, and no computed end past a later start. -/
structure NoOverrun (nodes : List PolicyNode) : Prop where
  distinct : nodes.Pairwise fun x y => x.addr ≠ y.addr
  within : ∀ x ∈ nodes, ∀ y ∈ nodes, x.addr < y.addr → x.addr + x.len ≤ y.addr

theorem NoOverrun.of_perm {first second : List PolicyNode}
    (hperm : first.Perm second) (hfirst : NoOverrun first) : NoOverrun second where
  distinct := (hperm.pairwise_iff fun h => h.symm).mp hfirst.distinct
  within := by
    intro x hx y hy
    exact hfirst.within x (hperm.mem_iff.mpr hx) y (hperm.mem_iff.mpr hy)

section Published

variable {kernel : KernelRbtree} (hkernel : kernel.KeepsOrder)

include hkernel

theorem inorder_listToTree_perm {nodes : List PolicyNode}
    (hdistinct : nodes.Pairwise fun x y => x.addr ≠ y.addr) :
    (listToTree kernel .nil nodes).inorder.Perm (nodes.map PolicyNode.toRegion) := by
  have hkept : firstNodes nodes = nodes := firstByKey_eq_self hdistinct
  simpa only [hkept] using inorder_listToTree_perm_firstNodes hkernel nodes

theorem nonOverlapping_listToTree {nodes : List PolicyNode}
    (hnodes : NoOverrun nodes) :
    NonOverlapping (listToTree kernel .nil nodes).inorder := by
  have hperm := inorder_listToTree_perm hkernel hnodes.distinct
  have hordered := publishedPolicy_ordered hkernel nodes
  refine List.Pairwise.imp_of_mem ?_ hordered
  intro x y hx hy hlt
  obtain ⟨node, hnode, rfl⟩ := List.mem_map.mp (hperm.mem_iff.mp hx)
  obtain ⟨other, hother, rfl⟩ := List.mem_map.mp (hperm.mem_iff.mp hy)
  exact ⟨hlt, hnodes.within node hnode other hother hlt⟩

/-- The tree disappears: lookup on it is a scan of its in-order content. -/
theorem lookupRegion_listToTree {nodes : List PolicyNode}
    (hnodes : NoOverrun nodes) (address : BitVec 64) :
    (lookupRegion (listToTree kernel .nil nodes) address).map Prod.snd =
      (listToTree kernel .nil nodes).inorder.find? fun region =>
        lookupTurn address region == .eq :=
  lookupRegion_eq_find? (nonOverlapping_listToTree hkernel hnodes) address

end Published

/-- The lists that the user-space application builds. -/
structure WellFormedPolicy (nodes : List PolicyNode) : Prop where
  nonempty : ∀ node ∈ nodes, node.len ≠ 0
  disjoint : nodes.Pairwise fun x y => x.toRegion.Disjoint y.toRegion
  bounded : ∀ node ∈ nodes, node.addr.toNat + node.len.toNat < 2 ^ 64

namespace WellFormedPolicy

variable {nodes : List PolicyNode} (hnodes : WellFormedPolicy nodes)

include hnodes

theorem disjoint_of_mem {x y : PolicyNode} (hx : x ∈ nodes) (hy : y ∈ nodes)
    (hne : x ≠ y) : x.toRegion.Disjoint y.toRegion := by
  have hsymm : Std.Symm fun x y : PolicyNode => x.toRegion.Disjoint y.toRegion :=
    ⟨fun _ _ h => h.symm⟩
  exact hnodes.disjoint.forall hx hy hne

theorem end_le_or_end_le {x y : PolicyNode} (hx : x ∈ nodes) (hy : y ∈ nodes)
    (hdisjoint : x.toRegion.Disjoint y.toRegion) :
    x.addr.toNat + x.len.toNat ≤ y.addr.toNat ∨
      y.addr.toNat + y.len.toNat ≤ x.addr.toNat := by
  have hxlen := hnodes.nonempty x hx
  have hylen := hnodes.nonempty y hy
  rcases hdisjoint with h | h | h | h
  · exact absurd h hxlen
  · exact absurd h hylen
  · exact Or.inl h
  · exact Or.inr h

theorem noOverrun : NoOverrun nodes where
  distinct := by
    refine List.Pairwise.imp_of_mem ?_ hnodes.disjoint
    intro x y hx hy hdisjoint haddr
    have hxlen := hnodes.nonempty x hx
    have hylen := hnodes.nonempty y hy
    have hends := hnodes.end_le_or_end_le hx hy hdisjoint
    rw [haddr] at hends
    bv_omega
  within := by
    intro x hx y hy hlt
    have hne : x ≠ y := by
      rintro rfl
      bv_omega
    have hends := hnodes.end_le_or_end_le hx hy (hnodes.disjoint_of_mem hx hy hne)
    have hbound := hnodes.bounded x hx
    bv_omega

theorem covers_unique {x y : PolicyNode} (hx : x ∈ nodes) (hy : y ∈ nodes)
    {address : BitVec 64} (hxcovers : x.Covers address) (hycovers : y.Covers address) :
    x = y := by
  by_contra hne
  exact MemoryRegion.disjoint_iff_forall_not_covers.mp (hnodes.disjoint_of_mem hx hy hne) address
    ⟨hxcovers, hycovers⟩

end WellFormedPolicy

section Published

variable {kernel : KernelRbtree} (hkernel : kernel.KeepsOrder)

include hkernel

theorem lookupRegion_wellFormed {nodes : List PolicyNode}
    (hnodes : WellFormedPolicy nodes) (address : BitVec 64) :
    (lookupRegion (listToTree kernel .nil nodes) address).map Prod.snd =
      (nodes.find? fun node => node.Covers address).map PolicyNode.toRegion := by
  have hperm := inorder_listToTree_perm hkernel hnodes.noOverrun.distinct
  have hunique : ∀ x ∈ nodes.map PolicyNode.toRegion,
      ∀ y ∈ nodes.map PolicyNode.toRegion,
        (lookupTurn address x == .eq) = true →
          (lookupTurn address y == .eq) = true → x = y := by
    intro x hx y hy hxturn hyturn
    obtain ⟨node, hnode, rfl⟩ := List.mem_map.mp hx
    obtain ⟨other, hother, rfl⟩ := List.mem_map.mp hy
    rw [beq_iff_eq, lookupTurn_eq_iff_covers (hnodes.bounded node hnode)] at hxturn
    rw [beq_iff_eq, lookupTurn_eq_iff_covers (hnodes.bounded other hother)] at hyturn
    rw [hnodes.covers_unique hnode hother hxturn hyturn]
  rw [lookupRegion_listToTree hkernel hnodes.noOverrun,
    ← find?_eq_of_perm hperm.symm hunique, List.find?_map]
  congr 1
  apply List.find?_congr
  intro node hnode
  rw [Function.comp_apply, Bool.eq_iff_iff, beq_iff_eq,
    lookupTurn_eq_iff_covers (hnodes.bounded node hnode), decide_eq_true_iff]
  rfl

/-- On the lists that the user-space application builds, the guard is a scan of
the list, and that list's tree is what `input_policy` publishes. -/
theorem texasGuard_eq_scanGuard {nodes : List PolicyNode}
    (hnodes : WellFormedPolicy nodes) :
    (∀ address flags,
      texasGuard (publishedPolicy kernel nodes) address flags =
        .returns (scanGuard nodes address flags)) ∧
    ∀ call ppos, WriteCall.Delivers call ppos nodes →
      ∀ fuel, nodes.length ≤ fuel → ∀ testPolicy, ∃ result,
        inputPolicy kernel fuel call ppos testPolicy = .returns result ∧
          0 < result.ret ∧ result.testPolicy = publishedPolicy kernel nodes := by
  constructor
  · intro address flags
    have hlookup := lookupRegion_wellFormed hkernel hnodes address
    simp only [texasGuard, publishedPolicy, hlookup, guardVerdict_find?]
  · intro call ppos hdelivers fuel hfuel testPolicy
    obtain ⟨list, hparse, _⟩ := hdelivers.parsed
    refine ⟨_, inputPolicy_publishes kernel hdelivers hfuel testPolicy, ?_, rfl⟩
    exact Int.natCast_pos.mpr (strlen_pos_of_sscanfLd hparse)

end Published

/-- The five regions of the application's test 3. -/
def multiNodePolicy : List PolicyNode :=
  [⟨0x0000000000000000, 0x0fffffffffffffff, 0⟩,
    ⟨0x1000000000000000, 0x6fffffffffffffff, 7⟩,
    ⟨0x8000000000000000, 0x6fffffffffffffff, 1⟩,
    ⟨0xF000000000000000, 0x0FFFFFFEFFFFFFFF, 2⟩,
    ⟨0xFFFFFFFF00000000, 0x00000000FFFFFFFF, 4⟩]

theorem multiNodePolicy_wellFormed : WellFormedPolicy multiNodePolicy where
  nonempty := by decide
  disjoint := by decide
  bounded := by decide

theorem texasGuard_eq_scanGuard_multiNodePolicy :
    WellFormedPolicy multiNodePolicy ∧
    (∀ address flags,
      texasGuard (publishedPolicy bottomUpRbtree multiNodePolicy) address flags =
        .returns (scanGuard multiNodePolicy address flags)) ∧
    scanGuard multiNodePolicy 0x8000000000000001 2 = .disallowed :=
  ⟨multiNodePolicy_wellFormed,
    (texasGuard_eq_scanGuard bottomUpRbtree_keepsOrder
      multiNodePolicy_wellFormed).1,
    by decide⟩

/-! ## The order of the list -/

section Published

variable {kernel : KernelRbtree} (hkernel : kernel.KeepsOrder)

include hkernel

theorem inorder_listToTree_eq_of_perm {first second : List PolicyNode}
    (hperm : first.Perm second)
    (hdistinct : first.Pairwise fun x y => x.addr ≠ y.addr) :
    (listToTree kernel .nil first).inorder =
      (listToTree kernel .nil second).inorder := by
  have hdistinct' : second.Pairwise fun x y => x.addr ≠ y.addr :=
    (hperm.pairwise_iff fun h => h.symm).mp hdistinct
  refine (publishedPolicy_ordered hkernel first).eq_of_perm
    (publishedPolicy_ordered hkernel second) ?_
  calc
    (listToTree kernel .nil first).inorder.Perm (first.map PolicyNode.toRegion) :=
      inorder_listToTree_perm hkernel hdistinct
    _ |>.Perm (second.map PolicyNode.toRegion) := hperm.map _
    _ |>.Perm (listToTree kernel .nil second).inorder :=
      (inorder_listToTree_perm hkernel hdistinct').symm

/-- Two lists with the same nodes give the same content; they give the same
answers when no region runs past the start of another. -/
theorem texasGuard_eq_of_perm {first second : List PolicyNode}
    (hperm : first.Perm second)
    (hdistinct : first.Pairwise fun x y => x.addr ≠ y.addr) :
    (listToTree kernel .nil first).inorder =
        (listToTree kernel .nil second).inorder ∧
      ((∀ x ∈ first, ∀ y ∈ first, x.addr < y.addr → x.addr + x.len ≤ y.addr) →
        ∀ address flags,
          texasGuard (publishedPolicy kernel first) address flags =
            texasGuard (publishedPolicy kernel second) address flags) := by
  have hinorder := inorder_listToTree_eq_of_perm hkernel hperm hdistinct
  refine ⟨hinorder, ?_⟩
  intro hwithin address flags
  have hfirst : NoOverrun first := ⟨hdistinct, hwithin⟩
  have hsecond : NoOverrun second := hfirst.of_perm hperm
  simp only [texasGuard, publishedPolicy, lookupRegion_listToTree hkernel hfirst,
    lookupRegion_listToTree hkernel hsecond, hinorder]

end Published

theorem texasGuard_eq_of_perm_multiNodePolicy :
    (listToTree bottomUpRbtree .nil multiNodePolicy).inorder =
        (listToTree bottomUpRbtree .nil multiNodePolicy.reverse).inorder ∧
      ∀ address flags,
        texasGuard (publishedPolicy bottomUpRbtree multiNodePolicy) address flags =
          texasGuard (publishedPolicy bottomUpRbtree multiNodePolicy.reverse)
            address flags :=
  have hresult := texasGuard_eq_of_perm bottomUpRbtree_keepsOrder
    (List.reverse_perm multiNodePolicy).symm (by decide)
  ⟨hresult.1, hresult.2 (by decide)⟩

/-- A region inside another one, inserted after it or before it. -/
theorem overlap_order_matters :
    bottomUpRbtree.KeepsOrder ∧
    [(⟨0, 100, 1⟩ : PolicyNode), ⟨50, 10, 2⟩].Perm [⟨50, 10, 2⟩, ⟨0, 100, 1⟩] ∧
    [(⟨0, 100, 1⟩ : PolicyNode), ⟨50, 10, 2⟩].Pairwise (fun x y => x.addr ≠ y.addr) ∧
    texasGuard (publishedPolicy bottomUpRbtree [⟨0, 100, 1⟩, ⟨50, 10, 2⟩]) 55 1 =
      .returns .allowed ∧
    texasGuard (publishedPolicy bottomUpRbtree [⟨50, 10, 2⟩, ⟨0, 100, 1⟩]) 55 1 =
      .returns .disallowed :=
  ⟨bottomUpRbtree_keepsOrder, by decide, by decide, by decide, by decide⟩

end Carat

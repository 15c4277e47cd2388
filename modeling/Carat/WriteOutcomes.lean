import Carat.PolicyContent
import Carat.Reachability

/-!
# How a write ends

`input_policy` follows a chain of raw pointers, allocates once for the root and
once for each node, and ignores what `insert_region` and `kmalloc` answer.  A call
that comes to an end has either been turned away before the list or has published
all of it; each way for a write to go wrong is a condition on its inputs.
-/

namespace Carat

open SteeredTree FirstByKey Relation

/-- Given enough steps, the call returns with a result that is `Good`. -/
def WriteCall.Ends (kernel : KernelRbtree) (call : WriteCall) (ppos : ℤ) (testPolicy : Policy)
    (Good : WriteResult → Prop) : Prop :=
  ∃ bound, ∀ fuel, bound ≤ fuel → ∃ result,
    inputPolicy kernel fuel call ppos testPolicy = .returns result ∧ Good result

/-- A call ends by being turned away or by publishing the list it delivers. -/
theorem WriteCall.ends_iff {kernel : KernelRbtree} {call : WriteCall} {ppos : ℤ}
    {testPolicy : Policy} {Good : WriteResult → Prop} :
    call.Ends kernel ppos testPolicy Good ↔
      (call.TurnedAway ppos ∧ Good ⟨-efault, ppos, testPolicy⟩) ∨
        ∃ nodes, call.Delivers ppos nodes ∧
          Good ⟨strlen call.buf, strlen call.buf, publishedPolicy kernel nodes⟩ := by
  constructor
  · rintro ⟨bound, hends⟩
    obtain ⟨result, hreturns, hgood⟩ := hends bound le_rfl
    rcases inputPolicy_cases hreturns with ⟨haway, rfl⟩ | ⟨nodes, hdelivers, _, rfl⟩
    · exact Or.inl ⟨haway, hgood⟩
    · exact Or.inr ⟨nodes, hdelivers, hgood⟩
  · rintro (⟨haway, hgood⟩ | ⟨nodes, hdelivers, hgood⟩)
    · exact ⟨0, fun fuel _ => ⟨_, inputPolicy_turnedAway kernel haway fuel testPolicy, hgood⟩⟩
    · exact ⟨nodes.length, fun fuel hfuel =>
        ⟨_, inputPolicy_publishes kernel hdelivers hfuel testPolicy, hgood⟩⟩

theorem WriteCall.Delivers.success {call : WriteCall} {ppos : ℤ} {nodes : List PolicyNode}
    (hdelivers : call.Delivers ppos nodes) : (0 : ℤ) < strlen call.buf := by
  obtain ⟨list, hparse, _⟩ := hdelivers.parsed
  exact Int.natCast_pos.mpr (strlen_pos_of_sscanfLd hparse)

/-! ## Following the list -/

/-- `list = list->next` leads from one address to the other. -/
def NextPtr (memory : BitVec 64 → Option NodeT) (list next : BitVec 64) : Prop :=
  list ≠ 0 ∧ ∃ node, memory list = some node ∧ node.next = next

/-- Following the list meets no unmapped address and comes back to none. -/
structure WellLinked (memory : BitVec 64 → Option NodeT) (list : BitVec 64) : Prop where
  mapped : ∀ address, ReflTransGen (NextPtr memory) list address → address ≠ 0 →
    ∃ node, memory address = some node
  acyclic : ∀ address, ReflTransGen (NextPtr memory) list address →
    ¬TransGen (NextPtr memory) address address

theorem NextPtr.eq {memory : BitVec 64 → Option NodeT} {list next : BitVec 64} {node : NodeT}
    (hnext : NextPtr memory list next) (hread : memory list = some node) : node.next = next := by
  obtain ⟨_, other, hother, rfl⟩ := hnext
  rw [Option.some.inj (hread.symm.trans hother)]

theorem ListAt.of_reaches {memory : BitVec 64 → Option NodeT} {list address : BitVec 64}
    {nodes : List PolicyNode} (hlist : ListAt memory list nodes)
    (hreaches : ReflTransGen (NextPtr memory) list address) :
    ∃ rest, ListAt memory address rest := by
  induction hreaches with
  | refl => exact ⟨nodes, hlist⟩
  | tail _ hstep ih =>
      obtain ⟨rest, hrest⟩ := ih
      cases hrest with
      | nil => exact absurd rfl hstep.1
      | cons _ hread htail =>
          rw [hstep.eq hread] at htail
          exact ⟨_, htail⟩

/-- A list in memory can be followed to its end. -/
theorem ListAt.acc {memory : BitVec 64 → Option NodeT} {list : BitVec 64}
    {nodes : List PolicyNode} (hlist : ListAt memory list nodes) :
    Acc (fun next list => NextPtr memory list next) list := by
  induction hlist with
  | nil => exact Acc.intro _ fun _ hstep => absurd rfl hstep.1
  | cons _ hread _ ih =>
      refine Acc.intro _ fun next hstep => ?_
      rwa [← hstep.eq hread]

theorem wellLinked_iff {memory : BitVec 64 → Option NodeT} {list : BitVec 64} :
    WellLinked memory list ↔ ∃ nodes, ListAt memory list nodes := by
  constructor
  · intro hlinked
    have hfinite : Finite (BitVec 64) :=
      Finite.of_injective BitVec.toFin fun _ _ => BitVec.eq_of_toFin_eq
    have hacc := Reachability.acc_of_no_cycle (Set.toFinite _) hlinked.acyclic
    induction hacc with
    | intro list _ ih =>
        by_cases hnull : list = 0
        · exact ⟨[], hnull ▸ .nil⟩
        · obtain ⟨node, hread⟩ := hlinked.mapped list .refl hnull
          have hstep : NextPtr memory list node.next := ⟨hnull, node, hread, rfl⟩
          obtain ⟨rest, hrest⟩ := ih node.next hstep
            ⟨fun address hreaches => hlinked.mapped address (hreaches.head hstep),
              fun address hreaches => hlinked.acyclic address (hreaches.head hstep)⟩
          exact ⟨_, .cons hnull hread hrest⟩
  · rintro ⟨nodes, hlist⟩
    constructor
    · intro address hreaches hnonnull
      obtain ⟨rest, hrest⟩ := hlist.of_reaches hreaches
      cases hrest with
      | nil => exact absurd rfl hnonnull
      | cons _ hread _ => exact ⟨_, hread⟩
    · intro address hreaches
      exact Reachability.not_cycle_of_acc hlist.acc hreaches

/-- With memory for every allocation, a write settles, in success or in an error
that changes nothing, exactly when it is turned away or its list is well linked. -/
theorem inputPolicy_settles_iff (kernel : KernelRbtree) {call : WriteCall}
    (hkmalloc : ∀ allocs, call.kmalloc allocs = true) (ppos : ℤ) (testPolicy : Policy) :
    (call.Ends kernel ppos testPolicy fun result =>
      0 < result.ret ∨ result.ret < 0 ∧ result.testPolicy = testPolicy) ↔
    call.TurnedAway ppos ∨
      ∃ list, sscanfLd call.buf = some list ∧ WellLinked call.memory list := by
  rw [WriteCall.ends_iff]
  constructor
  · rintro (⟨haway, _⟩ | ⟨nodes, hdelivers, _⟩)
    · exact Or.inl haway
    · obtain ⟨list, hparse, hlist⟩ := hdelivers.parsed
      exact Or.inr ⟨list, hparse, wellLinked_iff.mpr ⟨nodes, hlist⟩⟩
  · intro hinput
    by_cases haway : call.TurnedAway ppos
    · exact Or.inl ⟨haway, Or.inr ⟨by simp [efault], rfl⟩⟩
    · obtain ⟨list, hparse, hlinked⟩ := hinput.resolve_left haway
      obtain ⟨nodes, hlist⟩ := wellLinked_iff.mp hlinked
      have hdelivers : call.Delivers ppos nodes :=
        WriteCall.delivers_of_not_turnedAway haway ⟨list, hparse, hlist⟩
          fun allocs _ => hkmalloc allocs
      exact Or.inr ⟨nodes, hdelivers, Or.inl hdelivers.success⟩

/-- The list of the application's test 3 is followed to its end. -/
theorem inputPolicy_settles_multiNodePolicy :
    WellLinked (writeOf multiNodePolicy).memory 8 ∧
    (writeOf multiNodePolicy).Ends bottomUpRbtree 0 initialPolicy fun result =>
      0 < result.ret ∨ result.ret < 0 ∧ result.testPolicy = initialPolicy := by
  have hlist : ListAt (writeOf multiNodePolicy).memory 8 multiNodePolicy :=
    writeOf_listAt (by decide) 0
  have hlinked : WellLinked (writeOf multiNodePolicy).memory 8 :=
    wellLinked_iff.mpr ⟨_, hlist⟩
  exact ⟨hlinked, (inputPolicy_settles_iff bottomUpRbtree (fun _ => rfl) 0 initialPolicy).mpr
    (Or.inr ⟨8, by rfl, hlinked⟩)⟩

/-- The application's test 0: the text "5", with nothing mapped there. -/
def danglingWrite : WriteCall where
  ubuf := [53]
  copyFails := false
  stack := [0, 0]
  memory := fun _ => none
  kmalloc := fun _ => true

/-- One node, at address 8, that is its own successor. -/
def cyclicWrite : WriteCall where
  ubuf := [56]
  copyFails := false
  stack := [0, 0]
  memory := fun address => if address = 8 then some ⟨⟨0, 16, 1⟩, 8⟩ else none
  kmalloc := fun _ => true

theorem listToTreeLoop_cyclicWrite (kernel : KernelRbtree) (fuel allocs : ℕ)
    (root : RbTree MemoryRegion) :
    listToTreeLoop kernel cyclicWrite.memory cyclicWrite.kmalloc fuel allocs root 8 =
      .runsOn := by
  induction fuel generalizing allocs root with
  | zero => rfl
  | succ fuel ih => exact ih (allocs + 1) _

theorem dangling_and_cyclic_writes :
    (∀ fuel, inputPolicy bottomUpRbtree (fuel + 1) danglingWrite 0 initialPolicy =
      .faults (.badAddress 5)) ∧
    (∀ fuel, inputPolicy bottomUpRbtree fuel cyclicWrite 0 initialPolicy = .runsOn) ∧
    ¬(danglingWrite.Ends bottomUpRbtree 0 initialPolicy fun result =>
      0 < result.ret ∨ result.ret < 0 ∧ result.testPolicy = initialPolicy) ∧
    ¬(cyclicWrite.Ends bottomUpRbtree 0 initialPolicy fun result =>
      0 < result.ret ∨ result.ret < 0 ∧ result.testPolicy = initialPolicy) := by
  have hdangling : ∀ fuel, inputPolicy bottomUpRbtree (fuel + 1) danglingWrite 0
      initialPolicy = .faults (.badAddress 5) := fun _ => rfl
  have hcyclic : ∀ fuel, inputPolicy bottomUpRbtree fuel cyclicWrite 0 initialPolicy =
      .runsOn := by
    intro fuel
    have haccepted : ¬cyclicWrite.TurnedAway 0 := by decide
    have hparse : sscanfLd cyclicWrite.buf = some 8 := by rfl
    rw [inputPolicy_accepted bottomUpRbtree haccepted hparse, if_pos (by rfl),
      listToTreeLoop_cyclicWrite, Outcome.bind_runsOn]
  refine ⟨hdangling, hcyclic, ?_, ?_⟩
  · rintro ⟨bound, hends⟩
    obtain ⟨result, hreturns, _⟩ := hends (bound + 1) (Nat.le_succ _)
    simp [hdangling] at hreturns
  · rintro ⟨bound, hends⟩
    obtain ⟨result, hreturns, _⟩ := hends bound le_rfl
    simp [hcyclic] at hreturns

/-! ## Running out of memory -/

/-- A write of a finite list never stores through a failed allocation, and is all
or nothing, exactly when it is turned away or none of its allocations fails. -/
theorem inputPolicy_allOrNothing_iff (kernel : KernelRbtree) {call : WriteCall} {ppos : ℤ}
    {nodes : List PolicyNode}
    (hlist : ∀ list, sscanfLd call.buf = some list → ListAt call.memory list nodes)
    (testPolicy : Policy) :
    (call.Ends kernel ppos testPolicy fun result =>
      0 < result.ret ∧ result.testPolicy = publishedPolicy kernel nodes ∨
        result.ret < 0 ∧ result.testPolicy = testPolicy ∧ result.ppos = ppos) ↔
    call.TurnedAway ppos ∨ ∀ allocs, allocs ≤ nodes.length → call.kmalloc allocs = true := by
  rw [WriteCall.ends_iff]
  constructor
  · rintro (⟨haway, _⟩ | ⟨nodes', hdelivers, _⟩)
    · exact Or.inl haway
    · obtain ⟨list, hparse, hlist'⟩ := hdelivers.parsed
      obtain rfl := (hlist list hparse).unique hlist'
      exact Or.inr hdelivers.allocated
  · intro hinput
    by_cases haway : call.TurnedAway ppos
    · exact Or.inl ⟨haway, Or.inr ⟨by simp [efault], rfl, rfl⟩⟩
    · obtain ⟨_, _, _, list, hparse⟩ := WriteCall.not_turnedAway_iff.mp haway
      have hdelivers := WriteCall.delivers_of_not_turnedAway haway
        ⟨list, hparse, hlist list hparse⟩ (hinput.resolve_left haway)
      exact Or.inr ⟨nodes, hdelivers, Or.inl ⟨hdelivers.success, rfl⟩⟩

theorem writeOf_lists {nodes : List PolicyNode} (hlength : nodes.length < 2 ^ 32)
    (list : BitVec 64) (hparse : sscanfLd (writeOf nodes).buf = some list) :
    ListAt (writeOf nodes).memory list nodes := by
  obtain ⟨list', hparse', hlist'⟩ := (writeOf_delivers hlength).parsed
  obtain rfl := Option.some.inj (hparse'.symm.trans hparse)
  exact hlist'

theorem inputPolicy_allOrNothing_multiNodePolicy :
    (writeOf multiNodePolicy).Ends bottomUpRbtree 0 initialPolicy fun result =>
      0 < result.ret ∧ result.testPolicy = publishedPolicy bottomUpRbtree multiNodePolicy ∨
        result.ret < 0 ∧ result.testPolicy = initialPolicy ∧ result.ppos = 0 :=
  (inputPolicy_allOrNothing_iff bottomUpRbtree (writeOf_lists (by decide)) initialPolicy).mpr
    (Or.inr fun _ _ => rfl)

/-- The root is allocated, the first region is not. -/
def starvedWrite : WriteCall :=
  { writeOf [⟨0, -1, 5⟩] with kmalloc := fun allocs => allocs == 0 }

theorem failed_allocation_is_used :
    starvedWrite.Carries [⟨0, -1, 5⟩] ∧
    (∀ fuel, inputPolicy bottomUpRbtree (fuel + 1) starvedWrite 0 initialPolicy =
      .faults .nullAllocation) ∧
    ¬starvedWrite.Ends bottomUpRbtree 0 initialPolicy fun result =>
      0 < result.ret ∧ result.testPolicy = publishedPolicy bottomUpRbtree [⟨0, -1, 5⟩] ∨
        result.ret < 0 ∧ result.testPolicy = initialPolicy ∧ result.ppos = 0 := by
  have hfaults : ∀ fuel, inputPolicy bottomUpRbtree (fuel + 1) starvedWrite 0 initialPolicy =
      .faults .nullAllocation := fun _ => rfl
  have hlist : ListAt starvedWrite.memory 8 [⟨0, -1, 5⟩] := writeOf_listAt (by decide) 0
  refine ⟨⟨8, by rfl, hlist⟩, hfaults, ?_⟩
  rintro ⟨bound, hends⟩
  obtain ⟨result, hreturns, _⟩ := hends (bound + 1) (Nat.le_succ _)
  simp [hfaults] at hreturns

/-! ## Nodes that are refused -/

/-- The loop gets as far as this node, and `insert_region` refuses it. -/
def WriteCall.RefusesNode (kernel : KernelRbtree) (call : WriteCall)
    (nodes : List PolicyNode) : Prop :=
  ∃ before node after, nodes = before ++ node :: after ∧
    (∀ allocs, allocs ≤ before.length + 1 → call.kmalloc allocs = true) ∧
    (insertRegion kernel (listToTree kernel .nil before) node.toRegion).1 = 0

/-- No node that the loop gets to repeats the start address of an earlier one. -/
def WriteCall.StartsDistinct (call : WriteCall) (nodes : List PolicyNode) : Prop :=
  ∀ before node after, nodes = before ++ node :: after →
    (∀ allocs, allocs ≤ before.length + 1 → call.kmalloc allocs = true) →
      ∀ earlier ∈ before, earlier.addr ≠ node.addr

structure WriteCall.LosesNoNode (kernel : KernelRbtree) (call : WriteCall) (ppos : ℤ)
    (testPolicy : Policy) (nodes : List PolicyNode) : Prop where
  kept : ∀ fuel result, inputPolicy kernel fuel call ppos testPolicy = .returns result →
    0 < result.ret → ∃ regionMap, result.testPolicy.regionMap = some regionMap ∧
      ∀ node ∈ nodes, node.toRegion ∈ regionMap.inorder
  reported : call.RefusesNode kernel nodes → call.Ends kernel ppos testPolicy fun result =>
    result.ret < 0 ∧ result.testPolicy = testPolicy

theorem WriteCall.StartsDistinct.pairwise {call : WriteCall} {nodes : List PolicyNode}
    (hdistinct : call.StartsDistinct nodes)
    (hkmalloc : ∀ allocs, allocs ≤ nodes.length → call.kmalloc allocs = true) :
    nodes.Pairwise fun x y => x.addr ≠ y.addr := by
  rw [List.pairwise_iff_getElem]
  intro i j hi hj hlt
  have hsplit : nodes = nodes.take j ++ nodes[j] :: nodes.drop (j + 1) := by
    rw [← List.drop_eq_getElem_cons hj, List.take_append_drop]
  have hmem : nodes[i] ∈ nodes.take j := by
    rw [List.mem_take_iff_getElem]
    exact ⟨i, by omega, rfl⟩
  refine hdistinct _ _ _ hsplit (fun allocs hallocs => hkmalloc allocs ?_) _ hmem
  rw [List.length_take] at hallocs
  omega

section Refusals

variable {kernel : KernelRbtree} (hkernel : kernel.KeepsOrder)

include hkernel

/-- The tree refuses a node exactly when an earlier one has its start address. -/
theorem insertRegion_listToTree_eq_zero_iff (before : List PolicyNode) (node : PolicyNode) :
    (insertRegion kernel (listToTree kernel .nil before) node.toRegion).1 = 0 ↔
      ∃ earlier ∈ before, earlier.addr = node.addr := by
  have hordered := publishedPolicy_ordered hkernel before
  have hpresent : (∃ old ∈ (listToTree kernel .nil before).inorder,
      old.addr = node.toRegion.addr) ↔ ∃ earlier ∈ before, earlier.addr = node.addr := by
    rw [inorder_listToTree hkernel]
    constructor
    · rintro ⟨old, hold, haddr⟩
      obtain ⟨earlier, hearlier, rfl⟩ := mem_keptRegions.mp hold
      exact ⟨earlier, (firstByKey_sublist before).subset hearlier, haddr⟩
    · rintro ⟨earlier, hearlier, haddr⟩
      obtain ⟨first, hfirst, hsame⟩ := exists_key_firstByKey PolicyNode.addr hearlier
      exact ⟨first.toRegion, mem_keptRegions.mpr ⟨first, hfirst, rfl⟩, hsame.trans haddr⟩
  rw [← hpresent]
  constructor
  · intro hzero
    by_contra hfree
    have haccepted := (insertRegion_accepted hkernel hordered fun old hold haddr =>
      hfree ⟨old, hold, haddr⟩).1
    rw [hzero] at haccepted
    exact absurd haccepted (by decide)
  · intro htaken
    rw [insertRegion_refused hkernel hordered htaken]

/-- A write of a finite list loses no node exactly when it is turned away or no
node it gets to repeats an earlier start address. -/
theorem inputPolicy_losesNoNode_iff {call : WriteCall} {ppos : ℤ} {nodes : List PolicyNode}
    (hlist : ∀ list, sscanfLd call.buf = some list → ListAt call.memory list nodes)
    (testPolicy : Policy) :
    call.LosesNoNode kernel ppos testPolicy nodes ↔
      call.TurnedAway ppos ∨ call.StartsDistinct nodes := by
  constructor
  · intro hloses
    by_contra hneither
    obtain ⟨haccepted, hrepeats⟩ := not_or.mp hneither
    simp only [WriteCall.StartsDistinct, not_forall, not_not] at hrepeats
    obtain ⟨before, node, after, hsplit, hkmalloc, earlier, hearlier, haddr⟩ := hrepeats
    have hrefused := (insertRegion_listToTree_eq_zero_iff hkernel before node).mpr
      ⟨earlier, hearlier, haddr⟩
    have hends := hloses.reported ⟨before, node, after, hsplit, hkmalloc, hrefused⟩
    rcases WriteCall.ends_iff.mp hends with ⟨haway, _⟩ | ⟨nodes', hdelivers, hnegative, _⟩
    · exact haccepted haway
    · exact absurd hdelivers.success hnegative.asymm
  · intro hinput
    constructor
    · intro fuel result hreturns hsuccess
      rcases inputPolicy_cases hreturns with ⟨_, rfl⟩ | ⟨nodes', hdelivers, _, rfl⟩
      · simp [efault] at hsuccess
      · obtain ⟨list, hparse, hlist'⟩ := hdelivers.parsed
        obtain rfl := (hlist list hparse).unique hlist'
        have hdistinct := (hinput.resolve_left hdelivers.not_turnedAway).pairwise
          hdelivers.allocated
        refine ⟨_, rfl, fun node hnode => ?_⟩
        rw [(inorder_listToTree_perm hkernel hdistinct).mem_iff]
        exact List.mem_map_of_mem hnode
    · rintro ⟨before, node, after, hsplit, hkmalloc, hrefused⟩
      rcases hinput with haway | hdistinct
      · exact WriteCall.ends_iff.mpr (Or.inl ⟨haway, by simp [efault], rfl⟩)
      · obtain ⟨earlier, hearlier, haddr⟩ :=
          (insertRegion_listToTree_eq_zero_iff hkernel before node).mp hrefused
        exact absurd haddr (hdistinct before node after hsplit hkmalloc earlier hearlier)

end Refusals

theorem inputPolicy_losesNoNode_multiNodePolicy :
    (writeOf multiNodePolicy).LosesNoNode bottomUpRbtree 0 initialPolicy multiNodePolicy := by
  refine (inputPolicy_losesNoNode_iff bottomUpRbtree_keepsOrder (writeOf_lists (by decide))
    initialPolicy).mpr (Or.inr ?_)
  intro before node after hsplit _ earlier hearlier
  have hdistinct : multiNodePolicy.Pairwise fun x y => x.addr ≠ y.addr := by decide
  rw [hsplit, List.pairwise_append] at hdistinct
  exact hdistinct.2.2 earlier hearlier node List.mem_cons_self

/-- Two nodes with one start address: the second one is gone, and the write
reports success. -/
theorem second_node_lost :
    bottomUpRbtree.KeepsOrder ∧
    (writeOf [⟨0x1000, 16, 1⟩, ⟨0x1000, 64, 3⟩]).Delivers 0
      [⟨0x1000, 16, 1⟩, ⟨0x1000, 64, 3⟩] ∧
    (∃ regionMap, inputPolicy bottomUpRbtree 2 (writeOf [⟨0x1000, 16, 1⟩, ⟨0x1000, 64, 3⟩]) 0
        initialPolicy = .returns ⟨1, 1, ⟨1, some regionMap⟩⟩ ∧
      regionMap.inorder = [⟨0x1000, 16, 1⟩]) ∧
    ¬(writeOf [⟨0x1000, 16, 1⟩, ⟨0x1000, 64, 3⟩]).LosesNoNode bottomUpRbtree 0 initialPolicy
      [⟨0x1000, 16, 1⟩, ⟨0x1000, 64, 3⟩] := by
  have hreturns : inputPolicy bottomUpRbtree 2
      (writeOf [⟨0x1000, 16, 1⟩, ⟨0x1000, 64, 3⟩]) 0 initialPolicy =
        .returns ⟨1, 1, ⟨1, some (listToTree bottomUpRbtree .nil [⟨0x1000, 16, 1⟩])⟩⟩ := by
    decide
  refine ⟨bottomUpRbtree_keepsOrder, writeOf_delivers (by decide),
    ⟨_, hreturns, by decide⟩, ?_⟩
  intro hloses
  obtain ⟨regionMap, hmap, hkept⟩ := hloses.kept 2 _ hreturns (by decide)
  obtain rfl := Option.some.inj hmap
  exact absurd (hkept ⟨0x1000, 64, 3⟩ (by decide)) (by decide)

end Carat

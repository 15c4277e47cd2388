import Carat.LinkedTree
import Carat.PolicyModule

/-!
# The records behind a policy

`input_policy` once more, over a state that knows every record which has been
allocated and not freed.  The module never calls `kfree`: a replaced policy keeps
its root and its regions, and a region that `insert_region` refuses stays where
`list_to_tree` has put it, linked to nothing.

Forgetting the records' identities gives `inputPolicy` back.
-/

namespace Carat

open SteeredTree FirstByKey

/-- The `rb_root`s and `memory_region_t`s that are live.  Nothing is freed, so an
address is handed out once. -/
structure Records where
  next : Ptr
  roots : List Ptr
  regions : List Ptr
  deriving DecidableEq, Repr

namespace Records

def live (records : Records) : List Ptr := records.roots ++ records.regions

/-- The new root is `records.next`. -/
def kmallocRoot (records : Records) : Records :=
  { records with next := records.next + 1, roots := records.roots ++ [records.next] }

/-- The new region is `records.next`. -/
def kmallocRegion (records : Records) : Records :=
  { records with next := records.next + 1, regions := records.regions ++ [records.next] }

end Records

/-- `test_policy` with the identity of its root and of each region in the tree. -/
structure RecordState where
  records : Records
  moduleId : BitVec 64
  regionMap : Option (Ptr × RbTree (Ptr × MemoryRegion))
  deriving DecidableEq, Repr

def initialRecords : RecordState where
  records := ⟨0, [], []⟩
  moduleId := 0
  regionMap := none

namespace RecordState

def testPolicy (state : RecordState) : Policy where
  moduleId := state.moduleId
  regionMap := state.regionMap.map fun root => root.2.map Prod.snd

/-- The published root and the regions in its tree. -/
def published (state : RecordState) : List Ptr :=
  match state.regionMap with
  | none => []
  | some (root, tree) => root :: tree.pointers

/-- Live, and out of reach. -/
def Stranded (state : RecordState) (p : Ptr) : Prop :=
  p ∈ state.records.live ∧ p ∉ state.published

/-- The number of regions in the current policy. -/
def policySize (state : RecordState) : ℕ :=
  match state.regionMap with
  | none => 0
  | some (_, tree) => tree.inorder.length

end RecordState

/-! ## `input_policy` with records -/

/-- `insert_region` compares records by their start addresses. -/
def recordTurn (newRegion : Ptr × MemoryRegion) : Ptr × MemoryRegion → Ordering :=
  insertTurn newRegion.2.addr ∘ Prod.snd

def recordStart (record : Ptr × MemoryRegion) : ℕ := record.2.start

def insertRecord (kernel : KernelRbtree) (root : RbTree (Ptr × MemoryRegion))
    (newRegion : Ptr × MemoryRegion) : ℤ × RbTree (Ptr × MemoryRegion) :=
  match root.descend (recordTurn newRegion) with
  | .found _ _ => (0, root)
  | .vacant link => (1, kernel.rbInsertColor (root.linkNode newRegion link) link)

def recordLoop (kernel : KernelRbtree) (memory : BitVec 64 → Option NodeT)
    (kmalloc : ℕ → Bool) :
    ℕ → ℕ → Records → RbTree (Ptr × MemoryRegion) → BitVec 64 →
      Outcome (Records × RbTree (Ptr × MemoryRegion))
  | fuel, allocs, records, root, list =>
      if list = 0 then .returns (records, root)
      else
        match fuel with
        | 0 => .runsOn
        | fuel + 1 =>
            match memory list with
            | none => .faults (.badAddress list)
            | some node =>
                if kmalloc allocs then
                  recordLoop kernel memory kmalloc fuel (allocs + 1) records.kmallocRegion
                    (insertRecord kernel root (records.next, node.toRegion)).2 node.next
                else .faults .nullAllocation

structure RecordResult where
  ret : ℤ
  ppos : ℤ
  state : RecordState
  deriving DecidableEq, Repr

def inputPolicyRecords (kernel : KernelRbtree) (fuel : ℕ) (call : WriteCall) (ppos : ℤ)
    (state : RecordState) : Outcome RecordResult :=
  if ppos > 0 ∨ call.count > bufSize then .returns ⟨-efault, ppos, state⟩
  else if call.copyFails then .returns ⟨-efault, ppos, state⟩
  else
    match sscanfLd call.buf with
    | none => .returns ⟨-efault, ppos, state⟩
    | some userInput =>
        if call.kmalloc 0 then
          (recordLoop kernel call.memory call.kmalloc fuel 1 state.records.kmallocRoot .nil
            userInput).bind fun done =>
              let c := strlen call.buf
              .returns ⟨c, c, ⟨done.1, 1, some (state.records.next, done.2)⟩⟩
        else .faults .nullAllocation

/-! ### Forgetting the identities -/

section Refinement

variable {kernel : KernelRbtree}

theorem insertRecord_eq_insertBy (root : RbTree (Ptr × MemoryRegion))
    (newRegion : Ptr × MemoryRegion) :
    (insertRecord kernel root newRegion).2 =
      (insertBy kernel (recordTurn newRegion) newRegion root).getD root := by
  unfold insertRecord insertBy
  cases root.descend (recordTurn newRegion) <;> rfl

variable (hshape : kernel.ShapeOnly)

include hshape

theorem insertRecord_refines (root : RbTree (Ptr × MemoryRegion))
    (newRegion : Ptr × MemoryRegion) :
    (insertRecord kernel root newRegion).2.map Prod.snd =
      (insertRegion kernel (root.map Prod.snd) newRegion.2).2 := by
  rw [insertRecord_eq_insertBy, recordTurn, ← Option.getD_map (RbTree.map Prod.snd),
    map_insertBy hshape, insertRegion_eq_insertBy]
  cases insertBy kernel (insertTurn newRegion.2.addr) newRegion.2 (root.map Prod.snd) <;> rfl

theorem recordLoop_refines (memory : BitVec 64 → Option NodeT) (kmalloc : ℕ → Bool)
    (fuel allocs : ℕ) (records : Records) (root : RbTree (Ptr × MemoryRegion))
    (list : BitVec 64) :
    ((recordLoop kernel memory kmalloc fuel allocs records root list).bind fun done =>
        .returns (done.2.map Prod.snd)) =
      listToTreeLoop kernel memory kmalloc fuel allocs (root.map Prod.snd) list := by
  induction fuel generalizing allocs records root list with
  | zero =>
      unfold recordLoop listToTreeLoop
      split <;> rfl
  | succ fuel ih =>
      unfold recordLoop listToTreeLoop
      by_cases hnull : list = 0
      · simp [hnull]
      · cases hread : memory list with
        | none => simp only [hnull, if_false, Outcome.bind_faults]
        | some node =>
            cases hkmalloc : kmalloc allocs with
            | false => simp only [hnull, if_false, Bool.false_eq_true, Outcome.bind_faults]
            | true =>
                simp only [hnull, if_false, if_true]
                rw [ih, insertRecord_refines hshape]

theorem inputPolicyRecords_refines (fuel : ℕ) (call : WriteCall) (ppos : ℤ)
    (state : RecordState) :
    ((inputPolicyRecords kernel fuel call ppos state).bind fun result =>
        .returns ⟨result.ret, result.ppos, result.state.testPolicy⟩) =
      inputPolicy kernel fuel call ppos state.testPolicy := by
  unfold inputPolicyRecords inputPolicy
  by_cases hopen : ppos > 0 ∨ call.count > bufSize
  · simp [hopen]
  · cases hcopy : call.copyFails with
    | true => simp [hopen]
    | false =>
        cases hparse : sscanfLd call.buf with
        | none => simp [hopen]
        | some list =>
            cases hkmalloc : call.kmalloc 0 with
            | false => simp [hopen]
            | true =>
                have hloop := recordLoop_refines hshape call.memory call.kmalloc fuel 1
                  state.records.kmallocRoot .nil list
                rw [RbTree.map_nil] at hloop
                simp only [hopen, if_false, if_true, Bool.false_eq_true]
                rw [← hloop]
                cases recordLoop kernel call.memory call.kmalloc fuel 1
                  state.records.kmallocRoot .nil list <;> rfl

end Refinement

/-! ## What a call allocates and publishes -/

def Records.kmallocRegions (records : Records) (count : ℕ) : Records :=
  { records with
    next := records.next + count
    regions := records.regions ++ List.range' records.next count }

/-- Nothing that was live stops being live. -/
theorem Records.live_kmalloc_perm {records : Records}
    (hkept : records.live.Perm (List.range records.next)) (count : ℕ) :
    (records.kmallocRoot.kmallocRegions count).live.Perm
      (List.range (records.kmallocRoot.kmallocRegions count).next) := by
  have hrange : List.range records.next ++ List.range' records.next (count + 1) =
      List.range (records.next + 1 + count) := by
    have happend := List.range'_append_1 (s := 0) (m := records.next) (n := count + 1)
    rw [Nat.zero_add] at happend
    rw [List.range_eq_range', List.range_eq_range', happend, Nat.add_right_comm, Nat.add_assoc]
  calc
    (records.kmallocRoot.kmallocRegions count).live.Perm
        (records.live ++ List.range' records.next (count + 1)) := by
      simp only [live, kmallocRegions, kmallocRoot, List.range'_succ, List.append_assoc,
        List.singleton_append]
      exact List.perm_middle.symm.append_left _
    _ |>.Perm (List.range records.next ++ List.range' records.next (count + 1)) :=
      hkept.append_right _
    _ = List.range (records.next + 1 + count) := hrange

/-- The records that `list_to_tree` fills in, node by node. -/
def Records.filledWith (records : Records) (nodes : List PolicyNode) :
    List (Ptr × MemoryRegion) :=
  (List.range' records.next nodes.length).zip (nodes.map PolicyNode.toRegion)

theorem Records.map_fst_filledWith (records : Records) (nodes : List PolicyNode) :
    (records.filledWith nodes).map Prod.fst = List.range' records.next nodes.length :=
  List.map_fst_zip (by simp)

theorem Records.map_snd_filledWith (records : Records) (nodes : List PolicyNode) :
    (records.filledWith nodes).map Prod.snd = nodes.map PolicyNode.toRegion :=
  List.map_snd_zip (by simp)

/-- A successful call, in one piece. -/
def RecordState.publish (kernel : KernelRbtree) (state : RecordState)
    (nodes : List PolicyNode) : RecordState where
  records := state.records.kmallocRoot.kmallocRegions nodes.length
  moduleId := 1
  regionMap := some (state.records.next,
    insertAll kernel recordTurn .nil
      (state.records.kmallocRoot.filledWith nodes))

section Calls

variable (kernel : KernelRbtree)

theorem recordLoop_eq {memory : BitVec 64 → Option NodeT} {kmalloc : ℕ → Bool}
    {list : BitVec 64} {nodes : List PolicyNode} (hlist : ListAt memory list nodes)
    {fuel allocs : ℕ} (hfuel : nodes.length ≤ fuel)
    (hkmalloc : ∀ k, allocs ≤ k → k < allocs + nodes.length → kmalloc k = true)
    (records : Records) (root : RbTree (Ptr × MemoryRegion)) :
    recordLoop kernel memory kmalloc fuel allocs records root list =
      .returns (records.kmallocRegions nodes.length,
        insertAll kernel recordTurn root
          (records.filledWith nodes)) := by
  induction hlist generalizing fuel allocs records root with
  | nil =>
      unfold recordLoop
      simp [Records.kmallocRegions, Records.filledWith, insertAll]
  | cons hnonnull hread _ ih =>
      cases fuel with
      | zero => simp at hfuel
      | succ fuel =>
          rw [List.length_cons] at hfuel hkmalloc
          have hfirst : kmalloc allocs = true := hkmalloc allocs le_rfl (by omega)
          simp only [recordLoop, hnonnull, if_false, hread, hfirst, if_true]
          rw [ih (by omega) (fun k hlow hhigh => hkmalloc k (by omega) (by omega)),
            insertRecord_eq_insertBy]
          simp [Records.kmallocRegions, Records.kmallocRegion, Records.filledWith, insertAll,
            List.range'_succ, Nat.add_assoc, Nat.add_comm 1]

theorem inputPolicyRecords_turnedAway {call : WriteCall} {ppos : ℤ}
    (haway : call.TurnedAway ppos) (fuel : ℕ) (state : RecordState) :
    inputPolicyRecords kernel fuel call ppos state = .returns ⟨-efault, ppos, state⟩ := by
  unfold inputPolicyRecords
  rcases haway with hpos | hlong | hcopy | hparse
  · simp [hpos]
  · simp [hlong]
  · simp [hcopy]
  · simp [hparse]

theorem inputPolicyRecords_publishes {call : WriteCall} {ppos : ℤ} {nodes : List PolicyNode}
    (hdelivers : call.Delivers ppos nodes) {fuel : ℕ} (hfuel : nodes.length ≤ fuel)
    (state : RecordState) :
    inputPolicyRecords kernel fuel call ppos state =
      .returns ⟨strlen call.buf, strlen call.buf, state.publish kernel nodes⟩ := by
  obtain ⟨list, hparse, hlist⟩ := hdelivers.parsed
  have hposition := hdelivers.position
  have hcount := hdelivers.count
  have hopen : ¬(ppos > 0 ∨ call.count > bufSize) := by omega
  have hroot : call.kmalloc 0 = true := hdelivers.allocated 0 (Nat.zero_le _)
  have hkmalloc : ∀ k, 1 ≤ k → k < 1 + nodes.length → call.kmalloc k = true :=
    fun k _ hhigh => hdelivers.allocated k (by omega)
  have hloop := recordLoop_eq kernel hlist hfuel hkmalloc state.records.kmallocRoot .nil
  simp only [inputPolicyRecords, hopen, if_false, hdelivers.copied, Bool.false_eq_true, hparse,
    hroot, if_true, hloop, Outcome.bind_returns]
  rfl

end Calls

/-! ## Runs -/

/-- A call that is turned away, or else delivers a finite list. -/
structure ListedWrite where
  call : WriteCall
  ppos : ℤ
  nodes : List PolicyNode
  delivers : ¬call.TurnedAway ppos → call.Delivers ppos nodes

/-- The lists of the calls that succeed. -/
def delivered (writes : List ListedWrite) : List (List PolicyNode) :=
  writes.filterMap fun write =>
    if write.call.TurnedAway write.ppos then none else some write.nodes

def runWrites (kernel : KernelRbtree) (fuel : ℕ) :
    RecordState → List ListedWrite → Outcome RecordState
  | state, [] => .returns state
  | state, write :: rest =>
      (inputPolicyRecords kernel fuel write.call write.ppos state).bind fun result =>
        runWrites kernel fuel result.state rest

theorem runWrites_eq (kernel : KernelRbtree) (writes : List ListedWrite) :
    ∃ bound, ∀ fuel, bound ≤ fuel → ∀ state, runWrites kernel fuel state writes =
      .returns ((delivered writes).foldl (RecordState.publish kernel) state) := by
  induction writes with
  | nil => exact ⟨0, fun _ _ _ => rfl⟩
  | cons write rest ih =>
      obtain ⟨bound, hrest⟩ := ih
      refine ⟨max write.nodes.length bound, ?_⟩
      intro fuel hfuel state
      obtain ⟨hnodes, hbound⟩ := max_le_iff.mp hfuel
      by_cases haway : write.call.TurnedAway write.ppos
      · have hskip : delivered (write :: rest) = delivered rest :=
          List.filterMap_cons_none (if_pos haway)
        rw [runWrites, inputPolicyRecords_turnedAway kernel haway, Outcome.bind_returns,
          hrest fuel hbound, hskip]
      · have htake : delivered (write :: rest) = write.nodes :: delivered rest :=
          List.filterMap_cons_some (if_neg haway)
        rw [runWrites, inputPolicyRecords_publishes kernel (write.delivers haway) hnodes,
          Outcome.bind_returns, hrest fuel hbound, htake, List.foldl_cons]

/-- The books after successful calls with these lists: what is live, what is
published, and how much of each. -/
structure RecordState.Accounts (state : RecordState) (lists : List (List PolicyNode)) :
    Prop where
  -- every record that was ever handed out is live
  kept : state.records.live.Perm (List.range state.records.next)
  roots : state.records.roots.length = lists.length
  regions : state.records.regions.length = (lists.map List.length).sum
  published : ∀ root tree, state.regionMap = some (root, tree) →
    root ∈ state.records.roots ∧ ∀ p ∈ tree.pointers, p ∈ state.records.regions
  distinct : state.published.Nodup
  root : state.regionMap = none ↔ lists = []
  policySize : state.policySize = (firstNodes (lists.getLast?.getD [])).length

theorem initialRecords_accounts : initialRecords.Accounts [] where
  kept := List.Perm.refl _
  roots := rfl
  regions := rfl
  published root tree hmap := by simp [initialRecords] at hmap
  distinct := List.nodup_nil
  root := by simp [initialRecords]
  policySize := rfl

theorem map_snd_firstByKey_filledWith (records : Records) (nodes : List PolicyNode) :
    (firstByKey recordStart (records.filledWith nodes)).map Prod.snd =
      (firstNodes nodes).map PolicyNode.toRegion := by
  rw [← firstByKey_start_toRegion, ← records.map_snd_filledWith, firstByKey_map]
  rfl

section Accounts

variable {kernel : KernelRbtree} (hkernel : kernel.KeepsOrder)

include hkernel

theorem insertAll_filledWith_perm (records : Records) (nodes : List PolicyNode) :
    (insertAll kernel recordTurn .nil (records.filledWith nodes)).inorder.Perm
      (firstByKey recordStart (records.filledWith nodes)) := by
  have hturn : recordTurn = fun fresh => keySteer recordStart (recordStart fresh) :=
    funext fun fresh => congrArg (· ∘ Prod.snd) (insertTurn_eq_keySteer fresh.2.addr)
  rw [hturn]
  exact (insertAll_keyed hkernel recordStart (records.filledWith nodes)).2

/-- The records in the tree are some of those that were filled in. -/
theorem exists_pointers_perm (records : Records) (nodes : List PolicyNode) :
    ∃ linked : List Ptr, linked.Sublist (List.range' records.next nodes.length) ∧
      (insertAll kernel recordTurn .nil (records.filledWith nodes)).pointers.Perm linked := by
  refine ⟨(firstByKey recordStart (records.filledWith nodes)).map Prod.fst, ?_, ?_⟩
  · rw [← records.map_fst_filledWith]
    exact (firstByKey_sublist _).map Prod.fst
  · exact (insertAll_filledWith_perm hkernel records nodes).map Prod.fst

theorem RecordState.Accounts.publish {state : RecordState} {lists : List (List PolicyNode)}
    (haccounts : state.Accounts lists) (nodes : List PolicyNode) :
    (state.publish kernel nodes).Accounts (lists ++ [nodes]) := by
  obtain ⟨linked, hsub, hperm⟩ :=
    exists_pointers_perm hkernel state.records.kmallocRoot nodes
  have hlinked : ∀ p, p ∈ (insertAll kernel recordTurn .nil
      (state.records.kmallocRoot.filledWith nodes)).pointers →
        p ∈ List.range' (state.records.next + 1) nodes.length :=
    fun p hp => hsub.subset (hperm.mem_iff.mp hp)
  constructor
  · exact Records.live_kmalloc_perm haccounts.kept nodes.length
  · simp [RecordState.publish, Records.kmallocRegions, Records.kmallocRoot, haccounts.roots]
  · simp [RecordState.publish, Records.kmallocRegions, Records.kmallocRoot, haccounts.regions]
  · rintro root tree hmap
    obtain ⟨rfl, rfl⟩ := Prod.mk.inj (Option.some.inj hmap)
    refine ⟨List.mem_append_right _ (List.mem_singleton_self _), fun p hp => ?_⟩
    exact List.mem_append_right _ (hlinked p hp)
  · refine List.nodup_cons.mpr ⟨?_, ?_⟩
    · intro hmem
      have hrange := List.mem_range'_1.mp (hlinked _ hmem)
      omega
    · exact hperm.nodup_iff.mpr (hsub.nodup List.nodup_range')
  · simp [RecordState.publish]
  · have hlength := congrArg List.length
      (map_snd_firstByKey_filledWith state.records.kmallocRoot nodes)
    rw [List.length_map, List.length_map] at hlength
    rw [List.getLast?_concat, Option.getD_some, ← hlength]
    exact (insertAll_filledWith_perm hkernel state.records.kmallocRoot nodes).length_eq

theorem foldl_publish_accounts (lists : List (List PolicyNode)) :
    (lists.foldl (RecordState.publish kernel) initialRecords).Accounts lists := by
  induction lists using List.reverseRecOn with
  | nil => exact initialRecords_accounts
  | append_singleton lists nodes ih =>
      rw [List.foldl_append]
      exact ih.publish hkernel nodes

end Accounts

namespace RecordState.Accounts

variable {state : RecordState} {lists : List (List PolicyNode)} (haccounts : state.Accounts lists)

include haccounts

theorem live_nodup : state.records.live.Nodup :=
  haccounts.kept.nodup_iff.mpr List.nodup_range

theorem live_length :
    state.records.live.length = lists.length + (lists.map List.length).sum := by
  rw [Records.live, List.length_append, haccounts.roots, haccounts.regions]

theorem published_subset : state.published ⊆ state.records.live := by
  intro p hp
  unfold RecordState.published at hp
  cases hmap : state.regionMap with
  | none => simp [hmap] at hp
  | some root =>
      obtain ⟨hroot, hregions⟩ := haccounts.published root.1 root.2 hmap
      simp only [hmap, List.mem_cons] at hp
      rcases hp with rfl | hp
      · exact List.mem_append_left _ hroot
      · exact List.mem_append_right _ (hregions p hp)

theorem published_length (hne : lists ≠ []) :
    state.published.length = (firstNodes (lists.getLast?.getD [])).length + 1 := by
  have hsize := haccounts.policySize
  have hroot := mt haccounts.root.mp hne
  unfold RecordState.policySize at hsize
  unfold RecordState.published
  cases hmap : state.regionMap with
  | none => exact absurd hmap hroot
  | some root =>
      simp only [hmap] at hsize
      simp [RbTree.pointers, hsize]

/-- All that is live is published when there is no more of it. -/
theorem none_stranded_iff_length :
    (∀ p, ¬state.Stranded p) ↔ state.records.live.length ≤ state.published.length := by
  constructor
  · intro hnone
    have hsub : state.records.live ⊆ state.published := by
      intro p hp
      by_contra hout
      exact hnone p ⟨hp, hout⟩
    exact (haccounts.live_nodup.subperm hsub).length_le
  · rintro hlength p ⟨hlive, hout⟩
    have hperm := (haccounts.distinct.subperm haccounts.published_subset).perm_of_length_le hlength
    exact hout (hperm.mem_iff.mpr hlive)

theorem none_stranded_iff :
    (∀ p, ¬state.Stranded p) ↔
      lists.length ≤ 1 ∧ ∀ nodes ∈ lists, nodes.Pairwise fun x y => x.addr ≠ y.addr := by
  rw [haccounts.none_stranded_iff_length, haccounts.live_length]
  rcases lists.eq_nil_or_concat' with rfl | ⟨earlier, last, rfl⟩
  · simp
  · have hfewer : (firstNodes last).length ≤ last.length := (firstByKey_sublist last).length_le
    have hdistinct : (firstNodes last).length = last.length ↔
        last.Pairwise fun x y => x.addr ≠ y.addr :=
      length_firstByKey_eq_iff
    rw [haccounts.published_length (by simp), List.getLast?_concat, Option.getD_some]
    simp only [List.length_append, List.length_singleton, List.map_append, List.map_singleton,
      List.sum_append, List.sum_singleton]
    constructor
    · intro hlength
      obtain rfl : earlier = [] := List.length_eq_zero_iff.mp (by omega)
      refine ⟨by simp, ?_⟩
      simpa using hdistinct.mp (by omega)
    · rintro ⟨hone, hall⟩
      obtain rfl : earlier = [] := List.length_eq_zero_iff.mp (by omega)
      have hsame := hdistinct.mpr (hall last (by simp))
      simp
      omega

end RecordState.Accounts

/-- After every run of writes everything that was ever allocated is still live: a
root for each success and a region for each node.  Nothing is out of reach exactly
when at most one write has succeeded, with a list that repeats no start address. -/
theorem runWrites_accounts {kernel : KernelRbtree} (hkernel : kernel.KeepsOrder)
    (writes : List ListedWrite) :
    ∃ bound state,
      (∀ fuel, bound ≤ fuel → runWrites kernel fuel initialRecords writes = .returns state) ∧
      state.Accounts (delivered writes) ∧
      ((∀ p, ¬state.Stranded p) ↔
        (delivered writes).length ≤ 1 ∧
          ∀ nodes ∈ delivered writes, nodes.Pairwise fun x y => x.addr ≠ y.addr) := by
  obtain ⟨bound, hrun⟩ := runWrites_eq kernel writes
  have haccounts := foldl_publish_accounts hkernel (delivered writes)
  exact ⟨bound, _, fun fuel hfuel => hrun fuel hfuel initialRecords, haccounts,
    haccounts.none_stranded_iff⟩

def listedWrite (nodes : List PolicyNode) (hlength : nodes.length < 2 ^ 32) : ListedWrite where
  call := writeOf nodes
  ppos := 0
  nodes := nodes
  delivers _ := writeOf_delivers hlength

theorem runWrites_accounts_replaced :
    ∃ bound state, (∀ fuel, bound ≤ fuel →
      runWrites bottomUpRbtree fuel initialRecords
        [listedWrite [⟨0x1000, 16, 1⟩] (by decide), listedWrite [⟨0, -1, 5⟩] (by decide)] =
          .returns state) ∧
      state.records.regions.length = 2 := by
  obtain ⟨bound, state, hrun, haccounts, _⟩ := runWrites_accounts bottomUpRbtree_keepsOrder
    [listedWrite [⟨0x1000, 16, 1⟩] (by decide), listedWrite [⟨0, -1, 5⟩] (by decide)]
  exact ⟨bound, state, hrun, by rw [haccounts.regions]; decide⟩

/-- A region that was refused, and a policy that was replaced. -/
theorem records_stranded :
    (∃ state, runWrites bottomUpRbtree 2 initialRecords
        [listedWrite [⟨0x1000, 16, 1⟩, ⟨0x1000, 64, 3⟩] (by decide)] = .returns state ∧
      state.records = ⟨3, [0], [1, 2]⟩ ∧ state.published = [0, 1] ∧ state.policySize = 1) ∧
    (∃ state, runWrites bottomUpRbtree 2 initialRecords
        [listedWrite [⟨0x1000, 16, 1⟩] (by decide), listedWrite [⟨0, -1, 5⟩] (by decide)] =
          .returns state ∧
      state.records = ⟨4, [0, 2], [1, 3]⟩ ∧ state.published = [2, 3] ∧ state.policySize = 1) ∧
    ¬∀ (writes : List ListedWrite) (fuel : ℕ) (state : RecordState),
      runWrites bottomUpRbtree fuel initialRecords writes = .returns state →
        (∀ p, ¬state.Stranded p) ∧ state.records.regions.length = state.policySize := by
  have hrefused : ∃ state, runWrites bottomUpRbtree 2 initialRecords
      [listedWrite [⟨0x1000, 16, 1⟩, ⟨0x1000, 64, 3⟩] (by decide)] = .returns state ∧
      state.records = ⟨3, [0], [1, 2]⟩ ∧ state.published = [0, 1] ∧ state.policySize = 1 :=
    ⟨_, rfl, by decide, by decide, by decide⟩
  refine ⟨hrefused, ⟨_, rfl, by decide, by decide, by decide⟩, ?_⟩
  intro hall
  obtain ⟨state, hrun, hrecords, _, hsize⟩ := hrefused
  have hequal := (hall _ _ state hrun).2
  rw [hrecords, hsize] at hequal
  exact absurd hequal (by decide)

end Carat

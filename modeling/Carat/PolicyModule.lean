import Carat.KeyedInsertion
import Carat.PolicyTree

/-!
# The policy module

`list_to_tree`, `texas_guard` and the two procfs entry points `input_policy` and
`output_policy`, with the global `test_policy` passed explicitly.

A policy arrives as a number in a text buffer: the address of a linked list in
user memory.  The loop over that list is therefore a loop over raw memory, with
fuel; `listToTree` is the same loop over a list already in hand, and
`listToTreeLoop_eq` connects the two.
-/

namespace Carat

open SteeredTree FirstByKey

/-- What the C code may do instead of carrying on. -/
inductive Fault where
  -- `root->rb_node` is read through a NULL `test_policy.region_map`.
  | nullRegionMap
  | nullAllocation
  | badAddress (address : BitVec 64)
  | bufferOverrun
  deriving DecidableEq, Repr

inductive Outcome (α : Type) where
  | returns (result : α)
  | faults (fault : Fault)
  -- The fuel ran out: the loop is still running.
  | runsOn
  deriving DecidableEq, Repr

def Outcome.bind {α β : Type} : Outcome α → (α → Outcome β) → Outcome β
  | .returns result, next => next result
  | .faults fault, _ => .faults fault
  | .runsOn, _ => .runsOn

@[simp] theorem Outcome.bind_returns {α β : Type} (result : α)
    (next : α → Outcome β) : (Outcome.returns result).bind next = next result := rfl

@[simp] theorem Outcome.bind_faults {α β : Type} (fault : Fault)
    (next : α → Outcome β) : (Outcome.faults fault).bind next = .faults fault := rfl

@[simp] theorem Outcome.bind_runsOn {α β : Type} (next : α → Outcome β) :
    (Outcome.runsOn : Outcome α).bind next = .runsOn := rfl

theorem Outcome.exists_of_bind {α β : Type} {first : Outcome α} {next : α → Outcome β}
    {result : β} (hbind : first.bind next = .returns result) :
    ∃ middle, first = .returns middle ∧ next middle = .returns result := by
  cases first with
  | returns middle => exact ⟨middle, rfl, hbind⟩
  | faults fault => cases hbind
  | runsOn => cases hbind

/-- The three fields of a `node_t` that end up in the policy. -/
structure PolicyNode where
  addr : BitVec 64
  len : BitVec 64
  flags : BitVec 8
  deriving DecidableEq, Repr

/-- `node_t` as it lies in user memory. -/
structure NodeT extends PolicyNode where
  next : BitVec 64
  deriving DecidableEq, Repr

def PolicyNode.toRegion (node : PolicyNode) : MemoryRegion where
  addr := node.addr
  len := node.len
  protect := node.flags

/-- `policy_t`; a NULL `region_map` is `none`. -/
structure Policy where
  moduleId : BitVec 64
  regionMap : Option (RbTree MemoryRegion)
  deriving DecidableEq, Repr

/-- `test_policy` before any write: a zero-initialised global. -/
def initialPolicy : Policy where
  moduleId := 0
  regionMap := none

/-! ## `list_to_tree` -/

def listToTree (kernel : KernelRbtree) (root : RbTree MemoryRegion) :
    List PolicyNode → RbTree MemoryRegion
  | [] => root
  | node :: next =>
      listToTree kernel (insertRegion kernel root node.toRegion).2 next

/-- The nodes whose start address no earlier node has. -/
def firstNodes (nodes : List PolicyNode) : List PolicyNode :=
  firstByKey PolicyNode.addr nodes

/-- The same loop over raw memory.  `kmalloc` tells which allocations of the
call succeed; `allocs` counts those made so far. -/
def listToTreeLoop (kernel : KernelRbtree) (memory : BitVec 64 → Option NodeT)
    (kmalloc : ℕ → Bool) :
    ℕ → ℕ → RbTree MemoryRegion → BitVec 64 → Outcome (RbTree MemoryRegion)
  | fuel, allocs, root, list =>
      if list = 0 then .returns root
      else
        match fuel with
        | 0 => .runsOn
        | fuel + 1 =>
            match memory list with
            | none => .faults (.badAddress list)
            | some node =>
                if kmalloc allocs then
                  listToTreeLoop kernel memory kmalloc fuel (allocs + 1)
                    (insertRegion kernel root node.toRegion).2 node.next
                else .faults .nullAllocation

/-- A NULL-terminated list in memory. -/
inductive ListAt (memory : BitVec 64 → Option NodeT) :
    BitVec 64 → List PolicyNode → Prop where
  | nil : ListAt memory 0 []
  | cons {list : BitVec 64} {node : NodeT} {rest : List PolicyNode} :
      list ≠ 0 → memory list = some node → ListAt memory node.next rest →
        ListAt memory list (node.toPolicyNode :: rest)

theorem ListAt.unique {memory : BitVec 64 → Option NodeT} {list : BitVec 64}
    {nodes nodes' : List PolicyNode} (hlist : ListAt memory list nodes)
    (hlist' : ListAt memory list nodes') : nodes = nodes' := by
  induction hlist generalizing nodes' with
  | nil =>
      cases hlist' with
      | nil => rfl
      | cons hnonnull => exact absurd rfl hnonnull
  | cons hnonnull hread _ ih =>
      cases hlist' with
      | nil => exact absurd rfl hnonnull
      | cons _ hread' hrest' =>
          obtain rfl := Option.some.inj (hread.symm.trans hread')
          rw [ih hrest']

theorem listToTreeLoop_eq (kernel : KernelRbtree)
    {memory : BitVec 64 → Option NodeT} {kmalloc : ℕ → Bool}
    {list : BitVec 64} {nodes : List PolicyNode} (hlist : ListAt memory list nodes)
    {fuel allocs : ℕ} (hfuel : nodes.length ≤ fuel)
    (hkmalloc : ∀ k, allocs ≤ k → k < allocs + nodes.length → kmalloc k = true)
    (root : RbTree MemoryRegion) :
    listToTreeLoop kernel memory kmalloc fuel allocs root list =
      .returns (listToTree kernel root nodes) := by
  induction hlist generalizing fuel allocs root with
  | nil =>
      unfold listToTreeLoop
      simp [listToTree]
  | cons hnonnull hread _ ih =>
      cases fuel with
      | zero => simp at hfuel
      | succ fuel =>
          rw [List.length_cons] at hfuel hkmalloc
          have hfirst : kmalloc allocs = true := hkmalloc allocs le_rfl (by omega)
          simp only [listToTreeLoop, hnonnull, if_false, hread, hfirst, if_true,
            listToTree]
          exact ih (by omega) (fun k hlow hhigh => hkmalloc k (by omega) (by omega)) _

/-- A loop that returns has read a list and got all its allocations. -/
theorem listToTreeLoop_returns {kernel : KernelRbtree}
    {memory : BitVec 64 → Option NodeT} {kmalloc : ℕ → Bool} {fuel allocs : ℕ}
    {root result : RbTree MemoryRegion} {list : BitVec 64}
    (hreturns :
      listToTreeLoop kernel memory kmalloc fuel allocs root list = .returns result) :
    ∃ nodes, ListAt memory list nodes ∧ nodes.length ≤ fuel ∧
      (∀ k, allocs ≤ k → k < allocs + nodes.length → kmalloc k = true) ∧
      result = listToTree kernel root nodes := by
  have hempty : ∀ {allocs : ℕ} {root : RbTree MemoryRegion} {list : BitVec 64} (fuel : ℕ),
      list = 0 → Outcome.returns root = .returns result →
      ∃ nodes, ListAt memory list nodes ∧ nodes.length ≤ fuel ∧
        (∀ k, allocs ≤ k → k < allocs + nodes.length → kmalloc k = true) ∧
        result = listToTree kernel root nodes := by
    rintro allocs root list fuel rfl hroot
    obtain rfl : root = result := by simpa using hroot
    exact ⟨[], .nil, Nat.zero_le _, fun k hlow hhigh => absurd hhigh (by simpa using hlow), rfl⟩
  induction fuel generalizing allocs root list with
  | zero =>
      unfold listToTreeLoop at hreturns
      by_cases hnull : list = 0
      · rw [if_pos hnull] at hreturns
        exact hempty 0 hnull hreturns
      · rw [if_neg hnull] at hreturns
        simp at hreturns
  | succ fuel ih =>
      unfold listToTreeLoop at hreturns
      by_cases hnull : list = 0
      · rw [if_pos hnull] at hreturns
        exact hempty _ hnull hreturns
      · rw [if_neg hnull] at hreturns
        cases hread : memory list with
        | none => simp [hread] at hreturns
        | some node =>
            cases hfirst : kmalloc allocs with
            | false => simp [hread, hfirst] at hreturns
            | true =>
                simp only [hread, hfirst, if_true] at hreturns
                obtain ⟨nodes, hlist, hlength, hkmalloc, hresult⟩ := ih hreturns
                refine ⟨_, .cons hnull hread hlist, by simpa using hlength, ?_, hresult⟩
                intro k hlow hhigh
                rcases Nat.eq_or_lt_of_le hlow with rfl | hlater
                · exact hfirst
                · rw [List.length_cons] at hhigh
                  exact hkmalloc k hlater (by omega)

theorem listToTree_eq_insertAll (kernel : KernelRbtree) (root : RbTree MemoryRegion)
    (nodes : List PolicyNode) :
    listToTree kernel root nodes =
      insertAll kernel (fun region => insertTurn region.addr) root
        (nodes.map PolicyNode.toRegion) := by
  unfold insertAll
  induction nodes generalizing root with
  | nil => rfl
  | cons node rest ih =>
      rw [listToTree, ih, List.map_cons, List.foldl_cons, insertRegion_eq_insertBy]
      cases insertBy kernel (insertTurn node.toRegion.addr) node.toRegion root <;> rfl

theorem firstByKey_start_toRegion (nodes : List PolicyNode) :
    firstByKey MemoryRegion.start (nodes.map PolicyNode.toRegion) =
      (firstNodes nodes).map PolicyNode.toRegion := by
  have hkeys : ∀ x y : PolicyNode, x.addr = y.addr ↔
      (MemoryRegion.start ∘ PolicyNode.toRegion) x =
        (MemoryRegion.start ∘ PolicyNode.toRegion) y :=
    fun _ _ => BitVec.toNat_inj.symm
  rw [firstByKey_map, firstNodes, firstByKey_congr hkeys]

section Build

variable {kernel : KernelRbtree} (hkernel : kernel.KeepsOrder)

include hkernel

theorem listToTree_ordered {root : RbTree MemoryRegion}
    (hordered : RegionOrdered root) (nodes : List PolicyNode) :
    RegionOrdered (listToTree kernel root nodes) := by
  induction nodes generalizing root with
  | nil => exact hordered
  | cons node rest ih =>
      exact ih (insertRegion_ordered hkernel hordered node.toRegion)

/-- Of a whole list the tree holds the first node for each start address. -/
theorem inorder_listToTree_perm_firstNodes (nodes : List PolicyNode) :
    (listToTree kernel .nil nodes).inorder.Perm ((firstNodes nodes).map PolicyNode.toRegion) := by
  have hsteer : (fun region : MemoryRegion => insertTurn region.addr) =
      fun region => keySteer MemoryRegion.start region.start :=
    funext fun region => insertTurn_eq_keySteer region.addr
  rw [listToTree_eq_insertAll, hsteer, ← firstByKey_start_toRegion]
  exact (insertAll_keyed hkernel MemoryRegion.start (nodes.map PolicyNode.toRegion)).2

end Build

/-! ## `texas_guard` -/

/-- C's `(access & flags) == access`, with `flags` promoted to 32 bits. -/
def checkProtections (access : BitVec 32) (flags : BitVec 8) : Bool :=
  (access &&& flags.setWidth 32) == access

theorem checkProtections_iff (access : BitVec 32) (flags : BitVec 8) :
    checkProtections access flags = true ↔
      ∀ i : ℕ, access.getLsbD i = true → (flags.setWidth 32).getLsbD i = true := by
  unfold checkProtections
  rw [beq_iff_eq]
  constructor
  · intro heq i hi
    rw [← heq, BitVec.getLsbD_and, Bool.and_eq_true] at hi
    exact hi.2
  · intro hbits
    apply BitVec.eq_of_getLsbD_eq
    intro i _
    rw [BitVec.getLsbD_and]
    cases haccess : access.getLsbD i with
    | false => rfl
    | true => simp only [Bool.true_and, hbits i haccess]

/-- The debug message a guard call ends in. -/
inductive GuardOutcome where
  | disallowed
  | allowed
  | noPolicy
  deriving DecidableEq, Repr

def guardVerdict (flags : BitVec 32) : Option MemoryRegion → GuardOutcome
  | some found =>
      if !checkProtections flags found.protect then .disallowed else .allowed
  | none => .noPolicy

def texasGuard (testPolicy : Policy) (ptr : BitVec 64) (flags : BitVec 32) :
    Outcome GuardOutcome :=
  match testPolicy.regionMap with
  | none => .faults .nullRegionMap
  | some regionMap =>
      .returns (guardVerdict flags ((lookupRegion regionMap ptr).map Prod.snd))

theorem guardVerdict_allowed_iff (flags : BitVec 32) (found : Option MemoryRegion) :
    guardVerdict flags found = .allowed ↔
      ∃ region, found = some region ∧
        checkProtections flags region.protect = true := by
  cases found with
  | none => simp [guardVerdict]
  | some region =>
      cases hcheck : checkProtections flags region.protect <;>
        simp [guardVerdict, hcheck]

theorem guardVerdict_disallowed_iff (flags : BitVec 32)
    (found : Option MemoryRegion) :
    guardVerdict flags found = .disallowed ↔
      ∃ region, found = some region ∧
        checkProtections flags region.protect = false := by
  cases found with
  | none => simp [guardVerdict]
  | some region =>
      cases hcheck : checkProtections flags region.protect <;>
        simp [guardVerdict, hcheck]

/-! ## `input_policy` -/

def bufSize : ℕ := 1000

def efault : ℤ := 14

def isSpace (c : UInt8) : Bool := (9 ≤ c && c ≤ 13) || c == 32 || c == 160

def isDigit (c : UInt8) : Bool := 48 ≤ c && c ≤ 57

/-- Decimal digits, accumulated modulo `2 ^ 64` as the kernel does. -/
def parseDigits (digits : List UInt8) : BitVec 64 :=
  digits.foldl (fun res c => res * 10 + BitVec.ofNat 64 (c.toNat - 48)) 0

/-- The kernel's `sscanf(buf, "%ld", ..)`: `none` when nothing is converted. -/
def sscanfLd (buf : List UInt8) : Option (BitVec 64) :=
  match buf.dropWhile isSpace with
  | [] => none
  | c :: str =>
      if c == 45 then
        if (str.head?.map isDigit).getD false then
          some (-parseDigits (str.takeWhile isDigit))
        else none
      else if isDigit c then some (parseDigits ((c :: str).takeWhile isDigit))
      else none

def strlen (buf : List UInt8) : ℕ := (buf.takeWhile (· != 0)).length

/-- What a call of `input_policy` meets outside the module. -/
structure WriteCall where
  -- The bytes at `ubuf`, `count` of them.
  ubuf : List UInt8
  -- `copy_from_user` could not copy everything.
  copyFails : Bool
  -- The bytes that lie in the uninitialised `buf` and after it.
  stack : List UInt8
  memory : BitVec 64 → Option NodeT
  -- Which allocations of the call succeed.
  kmalloc : ℕ → Bool

def WriteCall.count (call : WriteCall) : ℕ := call.ubuf.length

/-- `buf`, and what lies behind it, after the copy. -/
def WriteCall.buf (call : WriteCall) : List UInt8 :=
  call.ubuf ++ call.stack.drop call.count

structure WriteResult where
  ret : ℤ
  ppos : ℤ
  testPolicy : Policy
  deriving DecidableEq, Repr

def inputPolicy (kernel : KernelRbtree) (fuel : ℕ) (call : WriteCall) (ppos : ℤ)
    (testPolicy : Policy) : Outcome WriteResult :=
  if ppos > 0 ∨ call.count > bufSize then .returns ⟨-efault, ppos, testPolicy⟩
  else if call.copyFails then .returns ⟨-efault, ppos, testPolicy⟩
  else
    match sscanfLd call.buf with
    | none => .returns ⟨-efault, ppos, testPolicy⟩
    | some userInput =>
        if call.kmalloc 0 then
          (listToTreeLoop kernel call.memory call.kmalloc fuel 1 .nil userInput).bind
            fun root =>
              let c := strlen call.buf
              .returns ⟨c, c, { moduleId := 1, regionMap := some root }⟩
        else .faults .nullAllocation

def publishedPolicy (kernel : KernelRbtree) (nodes : List PolicyNode) : Policy where
  moduleId := 1
  regionMap := some (listToTree kernel .nil nodes)

/-- The call is refused before the list is looked at. -/
def WriteCall.TurnedAway (call : WriteCall) (ppos : ℤ) : Prop :=
  ppos > 0 ∨ call.count > bufSize ∨ call.copyFails = true ∨ sscanfLd call.buf = none

instance (call : WriteCall) (ppos : ℤ) : Decidable (call.TurnedAway ppos) :=
  inferInstanceAs (Decidable (_ ∨ _ ∨ _ ∨ _))

/-- The text is the address of a NULL-terminated list of these nodes. -/
def WriteCall.Carries (call : WriteCall) (nodes : List PolicyNode) : Prop :=
  ∃ list, sscanfLd call.buf = some list ∧ ListAt call.memory list nodes

/-- The call is accepted, and the number it carries is the address of a
well-formed list. -/
structure WriteCall.Delivers (call : WriteCall) (ppos : ℤ)
    (nodes : List PolicyNode) : Prop where
  position : ppos ≤ 0
  count : call.count ≤ bufSize
  copied : call.copyFails = false
  parsed : ∃ list, sscanfLd call.buf = some list ∧ ListAt call.memory list nodes
  allocated : ∀ allocs, allocs ≤ nodes.length → call.kmalloc allocs = true

theorem strlen_pos_of_sscanfLd {buf : List UInt8} {value : BitVec 64}
    (hparse : sscanfLd buf = some value) : 0 < strlen buf := by
  cases buf with
  | nil => simp [sscanfLd] at hparse
  | cons c rest =>
      by_cases hzero : c = 0
      · subst c
        have hspace : isSpace 0 = false := by decide
        have hdigit : isDigit 0 = false := by decide
        simp [sscanfLd, hspace, hdigit] at hparse
      · simp [strlen, hzero]

/-- What the call has going for it when it is not turned away. -/
theorem WriteCall.not_turnedAway_iff {call : WriteCall} {ppos : ℤ} :
    ¬call.TurnedAway ppos ↔
      ppos ≤ 0 ∧ call.count ≤ bufSize ∧ call.copyFails = false ∧
        ∃ list, sscanfLd call.buf = some list := by
  simp only [WriteCall.TurnedAway, not_or, gt_iff_lt, not_lt, Bool.not_eq_true,
    ← Option.ne_none_iff_exists', Ne]

theorem WriteCall.Delivers.not_turnedAway {call : WriteCall} {ppos : ℤ}
    {nodes : List PolicyNode} (hdelivers : call.Delivers ppos nodes) :
    ¬call.TurnedAway ppos := by
  obtain ⟨list, hparse, _⟩ := hdelivers.parsed
  apply WriteCall.not_turnedAway_iff.mpr
  exact ⟨hdelivers.position, hdelivers.count, hdelivers.copied, list, hparse⟩

theorem WriteCall.delivers_of_not_turnedAway {call : WriteCall} {ppos : ℤ}
    {nodes : List PolicyNode} (haccepted : ¬call.TurnedAway ppos)
    (hcarries : call.Carries nodes)
    (hkmalloc : ∀ allocs, allocs ≤ nodes.length → call.kmalloc allocs = true) :
    call.Delivers ppos nodes := by
  obtain ⟨hposition, hcount, hcopy, _⟩ := WriteCall.not_turnedAway_iff.mp haccepted
  exact ⟨hposition, hcount, hcopy, hcarries, hkmalloc⟩

theorem inputPolicy_turnedAway (kernel : KernelRbtree) {call : WriteCall} {ppos : ℤ}
    (haway : call.TurnedAway ppos) (fuel : ℕ) (testPolicy : Policy) :
    inputPolicy kernel fuel call ppos testPolicy = .returns ⟨-efault, ppos, testPolicy⟩ := by
  unfold inputPolicy
  rcases haway with hpos | hlong | hcopy | hparse
  · simp [hpos]
  · simp [hlong]
  · simp [hcopy]
  · simp [hparse]

theorem inputPolicy_accepted (kernel : KernelRbtree) {call : WriteCall} {ppos : ℤ}
    (haccepted : ¬call.TurnedAway ppos) {list : BitVec 64}
    (hparse : sscanfLd call.buf = some list) (fuel : ℕ) (testPolicy : Policy) :
    inputPolicy kernel fuel call ppos testPolicy =
      if call.kmalloc 0 then
        (listToTreeLoop kernel call.memory call.kmalloc fuel 1 .nil list).bind fun root =>
          .returns ⟨strlen call.buf, strlen call.buf, { moduleId := 1, regionMap := some root }⟩
      else .faults .nullAllocation := by
  obtain ⟨hposition, hcount, hcopy, _⟩ := WriteCall.not_turnedAway_iff.mp haccepted
  have hopen : ¬(ppos > 0 ∨ call.count > bufSize) := by omega
  simp [inputPolicy, hopen, hcopy, hparse]

theorem inputPolicy_publishes (kernel : KernelRbtree) {call : WriteCall} {ppos : ℤ}
    {nodes : List PolicyNode} (hdelivers : call.Delivers ppos nodes)
    {fuel : ℕ} (hfuel : nodes.length ≤ fuel) (testPolicy : Policy) :
    inputPolicy kernel fuel call ppos testPolicy =
      .returns ⟨strlen call.buf, strlen call.buf, publishedPolicy kernel nodes⟩ := by
  obtain ⟨list, hparse, hlist⟩ := hdelivers.parsed
  have hroot : call.kmalloc 0 = true := hdelivers.allocated 0 (Nat.zero_le _)
  have hloop : listToTreeLoop kernel call.memory call.kmalloc fuel 1 .nil list =
      .returns (listToTree kernel .nil nodes) :=
    listToTreeLoop_eq kernel hlist hfuel
      (fun k _ hhigh => hdelivers.allocated k (by omega)) .nil
  rw [inputPolicy_accepted kernel hdelivers.not_turnedAway hparse, if_pos hroot, hloop,
    Outcome.bind_returns]
  rfl

/-- Everything an `input_policy` call that returns can do: refuse without a
trace, or publish the list that the call delivers. -/
theorem inputPolicy_cases {kernel : KernelRbtree} {fuel : ℕ} {call : WriteCall}
    {ppos : ℤ} {testPolicy : Policy} {result : WriteResult}
    (hreturns : inputPolicy kernel fuel call ppos testPolicy = .returns result) :
    (call.TurnedAway ppos ∧ result = ⟨-efault, ppos, testPolicy⟩) ∨
      ∃ nodes, call.Delivers ppos nodes ∧ nodes.length ≤ fuel ∧
        result =
          ⟨strlen call.buf, strlen call.buf, publishedPolicy kernel nodes⟩ := by
  by_cases haway : call.TurnedAway ppos
  · rw [inputPolicy_turnedAway kernel haway, Outcome.returns.injEq] at hreturns
    exact Or.inl ⟨haway, hreturns.symm⟩
  · obtain ⟨_, _, _, list, hparse⟩ := WriteCall.not_turnedAway_iff.mp haway
    rw [inputPolicy_accepted kernel haway hparse] at hreturns
    split at hreturns
    next hroot =>
      cases hloop : listToTreeLoop kernel call.memory call.kmalloc fuel 1 .nil list with
      | faults fault => simp [hloop] at hreturns
      | runsOn => simp [hloop] at hreturns
      | returns root =>
          obtain ⟨nodes, hlist, hlength, hkmalloc, rfl⟩ := listToTreeLoop_returns hloop
          simp only [hloop, Outcome.bind_returns, Outcome.returns.injEq] at hreturns
          refine Or.inr ⟨nodes, WriteCall.delivers_of_not_turnedAway haway
            ⟨list, hparse, hlist⟩ ?_, hlength, hreturns.symm⟩
          intro allocs hallocs
          cases allocs with
          | zero => exact hroot
          | succ k => exact hkmalloc (k + 1) (by omega) (by omega)
    next => simp at hreturns

/-- A call that succeeds has published the list which it carries. -/
theorem inputPolicy_success {kernel : KernelRbtree} {fuel : ℕ} {call : WriteCall}
    {ppos : ℤ} {testPolicy : Policy} {result : WriteResult} {nodes : List PolicyNode}
    (hreturns : inputPolicy kernel fuel call ppos testPolicy = .returns result)
    (hsuccess : 0 < result.ret) (hcarries : call.Carries nodes) :
    call.Delivers ppos nodes ∧ result.testPolicy = publishedPolicy kernel nodes := by
  rcases inputPolicy_cases hreturns with ⟨_, rfl⟩ | ⟨nodes', hdelivers, _, rfl⟩
  · simp [efault] at hsuccess
  · obtain ⟨list, hparse, hlist⟩ := hcarries
    obtain ⟨list', hparse', hlist'⟩ := hdelivers.parsed
    obtain rfl := Option.some.inj (hparse.symm.trans hparse')
    obtain rfl := hlist.unique hlist'
    exact ⟨hdelivers, rfl⟩

/-! ### Any list can be written -/

def nodeAddress (nodes : List PolicyNode) (i : ℕ) : BitVec 64 :=
  if i < nodes.length then BitVec.ofNat 64 (8 * i + 8) else 0

/-- A writer that lays the nodes out one after the other from address 8 on. -/
def writeOf (nodes : List PolicyNode) : WriteCall where
  ubuf := if nodes.isEmpty then [48] else [56]
  copyFails := false
  stack := [0, 0]
  memory := fun address =>
    let i := address.toNat / 8 - 1
    if address = nodeAddress nodes i then
      nodes[i]?.map fun node => ⟨node, nodeAddress nodes (i + 1)⟩
    else none
  kmalloc := fun _ => true

theorem writeOf_listAt {nodes : List PolicyNode} (hlength : nodes.length < 2 ^ 32) (i : ℕ) :
    ListAt (writeOf nodes).memory (nodeAddress nodes i) (nodes.drop i) := by
  by_cases hi : i < nodes.length
  · have haddress : (BitVec.ofNat 64 (8 * i + 8)).toNat = 8 * i + 8 := by
      rw [BitVec.toNat_ofNat]
      omega
    have hnonnull : nodeAddress nodes i ≠ 0 := by
      rw [nodeAddress, if_pos hi]
      intro hzero
      rw [hzero] at haddress
      simp at haddress
    have hindex : (nodeAddress nodes i).toNat / 8 - 1 = i := by
      rw [nodeAddress, if_pos hi, haddress]
      omega
    have hread : (writeOf nodes).memory (nodeAddress nodes i) =
        some ⟨nodes[i], nodeAddress nodes (i + 1)⟩ := by
      simp [writeOf, hindex, hi]
    rw [List.drop_eq_getElem_cons hi]
    exact .cons hnonnull hread (writeOf_listAt hlength (i + 1))
  · rw [nodeAddress, if_neg hi, List.drop_eq_nil_of_le (not_lt.mp hi)]
    exact .nil
termination_by nodes.length - i

theorem writeOf_delivers {nodes : List PolicyNode} (hlength : nodes.length < 2 ^ 32) :
    (writeOf nodes).Delivers 0 nodes := by
  have hlist := writeOf_listAt hlength 0
  rw [List.drop_zero] at hlist
  have hparse : sscanfLd (writeOf nodes).buf = some (nodeAddress nodes 0) := by
    cases nodes <;> rfl
  have hcount : (writeOf nodes).count ≤ bufSize := by
    cases nodes <;> simp [writeOf, WriteCall.count, bufSize]
  exact ⟨le_rfl, hcount, rfl, ⟨_, hparse, hlist⟩, fun _ _ => rfl⟩

/-! ## `output_policy` -/

/-- `%d` of a non-negative number and `%lx`, as the kernel prints them. -/
def showDec (n : ℕ) : List Char := Nat.toDigits 10 n

def showHex {w : ℕ} (n : BitVec w) : List Char := Nat.toDigits 16 n.toNat

def showField (num : ℕ) (field value : List Char) : List Char :=
  "Region ".toList ++ showDec num ++ ' ' :: field ++ ": ".toList ++ value ++ ['\n']

def regionLines (num : ℕ) (currRegion : MemoryRegion) : List (List Char) :=
  [showField num "addr".toList (showHex currRegion.addr),
    showField num "len".toList (showHex currRegion.len),
    showField num "flags".toList (showHex currRegion.protect)]

/-- One `sprintf(buf+len, ..)`; the terminating NUL has to fit as well. -/
def sprintf (buf text : List Char) : Outcome (List Char) :=
  if buf.length + text.length + 1 > bufSize then .faults .bufferOverrun
  else .returns (buf ++ text)

def sprintfAll : List Char → List (List Char) → Outcome (List Char)
  | buf, [] => .returns buf
  | buf, text :: texts => (sprintf buf text).bind fun buf => sprintfAll buf texts

def outputLoop : ℕ → List Char → List MemoryRegion → Outcome (List Char)
  | _, buf, [] => .returns buf
  | num, buf, currRegion :: rest =>
      (sprintfAll buf (regionLines num currRegion)).bind fun buf =>
        outputLoop (num + 1) buf rest

/-- The text of a policy when nothing limits its length. -/
def outputText : ℕ → List MemoryRegion → List Char
  | _, [] => []
  | num, currRegion :: rest =>
      (regionLines num currRegion).flatten ++ outputText (num + 1) rest

structure ReadCall where
  count : ℕ
  copyFails : Bool
  deriving DecidableEq, Repr

structure ReadResult where
  ret : ℤ
  ppos : ℤ
  text : List Char
  deriving DecidableEq, Repr

def outputPolicy (testPolicy : Policy) (call : ReadCall) (ppos : ℤ) :
    Outcome ReadResult :=
  if ppos > 0 ∨ call.count < bufSize then .returns ⟨0, ppos, []⟩
  else
    match testPolicy.regionMap with
    | none => .faults .nullRegionMap
    | some regionMap =>
        (outputLoop 0 [] regionMap.inorder).bind fun buf =>
          if call.copyFails then .returns ⟨-efault, ppos, []⟩
          else .returns ⟨buf.length, buf.length, buf⟩

theorem sprintfAll_eq {buf : List Char} (hbuf : buf.length < bufSize)
    (texts : List (List Char)) :
    sprintfAll buf texts =
      if (buf ++ texts.flatten).length < bufSize then
        .returns (buf ++ texts.flatten)
      else .faults .bufferOverrun := by
  induction texts generalizing buf with
  | nil => simp [sprintfAll, hbuf]
  | cons text texts ih =>
      by_cases hfits : (buf ++ text).length < bufSize
      · have hroom : ¬buf.length + text.length + 1 > bufSize := by
          simp only [List.length_append] at hfits
          omega
        simp only [sprintfAll, sprintf, hroom, if_false, Outcome.bind_returns,
          ih hfits, List.flatten_cons, List.append_assoc]
      · have hover : buf.length + text.length + 1 > bufSize := by
          simp only [List.length_append] at hfits
          omega
        have hlong : ¬(buf ++ (text :: texts).flatten).length < bufSize := by
          simp only [List.flatten_cons, List.length_append] at hfits ⊢
          omega
        simp only [sprintfAll, sprintf, hover, if_true, Outcome.bind_faults, hlong,
          if_false]

theorem outputLoop_eq {buf : List Char} (hbuf : buf.length < bufSize)
    (num : ℕ) (regions : List MemoryRegion) :
    outputLoop num buf regions =
      if (buf ++ outputText num regions).length < bufSize then
        .returns (buf ++ outputText num regions)
      else .faults .bufferOverrun := by
  induction regions generalizing buf num with
  | nil => simp [outputLoop, outputText, hbuf]
  | cons region rest ih =>
      rw [outputLoop, sprintfAll_eq hbuf]
      split
      next hfits =>
        rw [Outcome.bind_returns, ih hfits, outputText, List.append_assoc]
      next hover =>
        have hlong : ¬(buf ++ outputText num (region :: rest)).length < bufSize := by
          simp only [outputText, List.length_append] at hover ⊢
          omega
        rw [Outcome.bind_faults, if_neg hlong]

/-- A policy renders into the buffer, the last NUL included. -/
def RendersIn (regionMap : RbTree MemoryRegion) : Prop :=
  (outputText 0 regionMap.inorder).length < bufSize

instance (regionMap : RbTree MemoryRegion) : Decidable (RendersIn regionMap) :=
  inferInstanceAs (Decidable (_ < _))

theorem outputLoop_start (regionMap : RbTree MemoryRegion) :
    outputLoop 0 [] regionMap.inorder =
      if RendersIn regionMap then .returns (outputText 0 regionMap.inorder)
      else .faults .bufferOverrun := by
  rw [outputLoop_eq (by decide)]
  rfl

end Carat

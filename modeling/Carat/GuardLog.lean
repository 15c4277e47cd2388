import Carat.PolicyModule
import Carat.RedBlackBalance

/-!
# What the module logs

`DEBUG_ENABLE` is 1, so every region that a guard looks at costs a message in the
kernel's log.  Publishing a list logs one message for every node and one more for
every node that is linked.  As the kernel keeps its trees balanced, a guard call
logs no more than logarithmically many messages.
-/

namespace Carat

open SteeredTree

/-- `DEBUG(fmt, ..)`. -/
def debug (text : List Char) : List Char := "DEBUG: ".toList ++ text

def regionBounds (data : MemoryRegion) : List Char :=
  "start: ".toList ++ showHex data.addr ++ "\nend: ".toList ++ showHex (data.addr + data.len)

def lookupRegionLog (root : RbTree MemoryRegion) (lookupAddr : BitVec 64) : List (List Char) :=
  debug ("Looking up address ".toList ++ showHex lookupAddr ++ ['\n']) ::
    (root.trail (lookupTurn lookupAddr)).map fun data => debug (regionBounds data)

def verdictText (addr : BitVec 64) : GuardOutcome → List Char
  | .disallowed => "Disallowed memory access on address: ".toList ++ showHex addr
  | .allowed => "Memory access allowed at address: ".toList ++ showHex addr
  | .noPolicy => "Could not find a policy for memory address ".toList ++ showHex addr

/-- The messages of a guard call; with a NULL `region_map` it faults after the first. -/
def texasGuardLog (testPolicy : Policy) (ptr : BitVec 64) (flags : BitVec 32) :
    List (List Char) :=
  debug ("Checking address: ".toList ++ showHex ptr ++ " with flags ".toList ++ showHex flags) ::
    match testPolicy.regionMap with
    | none => []
    | some regionMap =>
        lookupRegionLog regionMap ptr ++
          [debug (verdictText ptr
            (guardVerdict flags ((lookupRegion regionMap ptr).map Prod.snd)))]

def insertRegionLog (root : RbTree MemoryRegion) (newRegion : MemoryRegion) :
    List (List Char) :=
  debug "Begin inserting region\n".toList ::
    match root.descend (insertTurn newRegion.addr) with
    | .found _ _ => []
    | .vacant _ => [debug "End of while loop\n".toList]

def listToTreeLog (kernel : KernelRbtree) (root : RbTree MemoryRegion) :
    List PolicyNode → List (List Char)
  | [] => []
  | node :: next =>
      insertRegionLog root node.toRegion ++
        listToTreeLog kernel (insertRegion kernel root node.toRegion).2 next

/-- How many regions the loops of `insert_region` look at. -/
def listToTreeVisits (kernel : KernelRbtree) (root : RbTree MemoryRegion) : List PolicyNode → ℕ
  | [] => 0
  | node :: next =>
      (root.trail (insertTurn node.addr)).length +
        listToTreeVisits kernel (insertRegion kernel root node.toRegion).2 next

/-! ## The verdict can be read off the log -/

/-- How a message begins. -/
def GuardOutcome.mark : GuardOutcome → List Char
  | .disallowed => ['D', 'i']
  | .allowed => ['M', 'e']
  | .noPolicy => ['C', 'o']

theorem take_append_of_mark {text mark : List Char} (hmark : text.take 2 = mark)
    (hlength : mark.length = 2) (rest : List Char) : (text ++ rest).take 2 = mark := by
  have htext : 2 ≤ text.length := by
    have htake := List.length_take_le' 2 text
    rw [hmark] at htake
    omega
  rw [List.take_append_of_le_length htext, hmark]

theorem take_verdictText (addr : BitVec 64) (outcome : GuardOutcome) :
    (verdictText addr outcome).take 2 = outcome.mark := by
  cases outcome with
  | disallowed => exact take_append_of_mark (by decide +kernel) rfl _
  | allowed => exact take_append_of_mark (by decide +kernel) rfl _
  | noPolicy => exact take_append_of_mark (by decide +kernel) rfl _

theorem verdictText_inj {addr : BitVec 64} {first second : GuardOutcome}
    (htext : debug (verdictText addr first) = debug (verdictText addr second)) :
    first = second := by
  have hmarks := congrArg (List.take 2) (List.append_cancel_left htext)
  rw [take_verdictText, take_verdictText] at hmarks
  cases first <;> cases second <;> simp [GuardOutcome.mark] at hmarks <;> rfl

theorem getLast?_texasGuardLog (testPolicy : Policy) (ptr : BitVec 64) (flags : BitVec 32)
    (outcome : GuardOutcome) :
    (texasGuardLog testPolicy ptr flags).getLast? = some (debug (verdictText ptr outcome)) ↔
      texasGuard testPolicy ptr flags = .returns outcome := by
  unfold texasGuardLog texasGuard
  cases testPolicy.regionMap with
  | none =>
      -- only "Checking .." is there, which no verdict begins like
      have hfirst : ("Checking address: ".toList ++ showHex ptr ++ " with flags ".toList ++
          showHex flags).take 2 = ['C', 'h'] := by
        rw [List.append_assoc, List.append_assoc]
        exact take_append_of_mark (by decide +kernel) rfl _
      simp only [List.getLast?_singleton, Option.some.injEq, reduceCtorEq, iff_false]
      intro htext
      have hmarks := congrArg (List.take 2) (List.append_cancel_left htext)
      rw [hfirst, take_verdictText] at hmarks
      cases outcome <;> simp [GuardOutcome.mark] at hmarks
  | some regionMap =>
      simp only [← List.cons_append, List.getLast?_append, List.getLast?_singleton,
        Option.some_or, Option.some.injEq, Outcome.returns.injEq]
      exact ⟨verdictText_inj, fun heq => by rw [heq]⟩

theorem length_texasGuardLog {testPolicy : Policy} {regionMap : RbTree MemoryRegion}
    (hmap : testPolicy.regionMap = some regionMap) (ptr : BitVec 64) (flags : BitVec 32) :
    (texasGuardLog testPolicy ptr flags).length =
      (regionMap.trail (lookupTurn ptr)).length + 3 := by
  simp [texasGuardLog, lookupRegionLog, hmap]

/-! ## Building and searching are cheap -/

section Cost

variable {kernel : KernelRbtree} (hkernel : kernel.KeepsOrder) (hbalance : kernel.KeepsBalance)

theorem insertRegion_sharp {root : RbTree MemoryRegion} (hordered : RegionOrdered root)
    (newAddr : BitVec 64) : Sharp (insertTurn newAddr) root.inorder := by
  rw [insertTurn_eq_keySteer]
  exact hordered.sharp _

include hbalance in
theorem insertRegion_redBlack {root : RbTree MemoryRegion} (hordered : RegionOrdered root)
    (hredBlack : root.RedBlack) (newRegion : MemoryRegion) :
    (insertRegion kernel root newRegion).2.RedBlack := by
  unfold insertRegion
  cases hdescend : root.descend (insertTurn newRegion.addr) with
  | found place data => exact hredBlack
  | vacant link =>
      obtain ⟨before, after, hgap, _⟩ :=
        RbTree.gapAt_of_descend_vacant (insertRegion_sharp hordered _) hdescend
      exact hbalance newRegion hredBlack (by simp [hgap])

include hkernel in
theorem length_insertRegion {root : RbTree MemoryRegion} (hordered : RegionOrdered root)
    (newRegion : MemoryRegion) :
    (insertRegion kernel root newRegion).2.inorder.length + 1 =
      root.inorder.length + (insertRegionLog root newRegion).length := by
  have hcases := insertRegion_cases hkernel hordered newRegion
  unfold insertRegionLog
  unfold insertRegion at hcases ⊢
  cases hdescend : root.descend (insertTurn newRegion.addr) with
  | found place data => simp
  | vacant link =>
      simp only [hdescend] at hcases
      rcases hcases with ⟨habsurd, _⟩ | ⟨before, after, hinorder, _, _, _, hnew⟩
      · simp at habsurd
      · simp only [hnew, hinorder, List.length_append, List.length_cons, List.length_nil]
        omega

include hkernel in
/-- One message for every node and one for every region. -/
theorem length_listToTreeLog {root : RbTree MemoryRegion} (hordered : RegionOrdered root)
    (nodes : List PolicyNode) :
    (listToTreeLog kernel root nodes).length + root.inorder.length =
      nodes.length + (listToTree kernel root nodes).inorder.length := by
  induction nodes generalizing root with
  | nil => simp [listToTreeLog, listToTree]
  | cons node next ih =>
      have hone := length_insertRegion hkernel hordered node.toRegion
      have hrest := ih (insertRegion_ordered hkernel hordered node.toRegion)
      simp only [listToTreeLog, listToTree, List.length_append, List.length_cons]
      omega

include hkernel in
theorem length_le_length_listToTree {root : RbTree MemoryRegion} (hordered : RegionOrdered root)
    (nodes : List PolicyNode) :
    root.inorder.length ≤ (listToTree kernel root nodes).inorder.length := by
  induction nodes generalizing root with
  | nil => exact le_rfl
  | cons node next ih =>
      have hone := length_insertRegion hkernel hordered node.toRegion
      have hlog : 0 < (insertRegionLog root node.toRegion).length := by simp [insertRegionLog]
      have hrest := ih (insertRegion_ordered hkernel hordered node.toRegion)
      rw [listToTree]
      omega

include hkernel hbalance

theorem listToTree_redBlack {root : RbTree MemoryRegion} (hordered : RegionOrdered root)
    (hredBlack : root.RedBlack) (nodes : List PolicyNode) :
    (listToTree kernel root nodes).RedBlack := by
  induction nodes generalizing root with
  | nil => exact hredBlack
  | cons node next ih =>
      exact ih (insertRegion_ordered hkernel hordered _)
        (insertRegion_redBlack hbalance hordered hredBlack _)

theorem listToTreeVisits_le {root : RbTree MemoryRegion} (hordered : RegionOrdered root)
    (hredBlack : root.RedBlack) (nodes : List PolicyNode) :
    listToTreeVisits kernel root nodes ≤
      nodes.length * (2 * Nat.log 2 ((listToTree kernel root nodes).inorder.length + 1)) := by
  induction nodes generalizing root with
  | nil => simp [listToTreeVisits]
  | cons node next ih =>
      have hordered' := insertRegion_ordered hkernel hordered node.toRegion
      have hrest := ih hordered' (insertRegion_redBlack hbalance hordered hredBlack node.toRegion)
      have htrail := hredBlack.length_trail_le (insertTurn node.addr)
      have hgrows : root.inorder.length ≤ (listToTree kernel root (node :: next)).inorder.length :=
        length_le_length_listToTree hkernel hordered _
      have hlog : Nat.log 2 (root.inorder.length + 1) ≤
          Nat.log 2 ((listToTree kernel root (node :: next)).inorder.length + 1) :=
        Nat.log_mono_right (Nat.add_le_add_right hgrows 1)
      rw [listToTreeVisits, List.length_cons, Nat.add_mul, Nat.one_mul]
      rw [listToTree] at hlog ⊢
      omega

end Cost

theorem length_inorder_listToTree {kernel : KernelRbtree} (hkernel : kernel.KeepsOrder)
    (nodes : List PolicyNode) :
    (listToTree kernel .nil nodes).inorder.length = (firstNodes nodes).length := by
  rw [(inorder_listToTree_perm_firstNodes hkernel nodes).length_eq, List.length_map]

/-- **Publishing and guarding are cheap.**  For a list with `regions` different start
addresses the loops look at no more than `2 * log₂ (regions + 1)` regions for each
node, and one message is logged for each node and each region.  From then on a guard
call logs at most `2 * log₂ (regions + 1) + 3` messages, and the last of them tells
its verdict. -/
theorem publishedPolicy_cost {kernel : KernelRbtree} (hkernel : kernel.KeepsOrder)
    (hbalance : kernel.KeepsBalance) (nodes : List PolicyNode) :
    let regions := (firstNodes nodes).length
    listToTreeVisits kernel .nil nodes ≤ nodes.length * (2 * Nat.log 2 (regions + 1)) ∧
      (listToTreeLog kernel .nil nodes).length = nodes.length + regions ∧
      ∀ ptr flags,
        (texasGuardLog (publishedPolicy kernel nodes) ptr flags).length ≤
            2 * Nat.log 2 (regions + 1) + 3 ∧
          ∀ outcome,
            (texasGuardLog (publishedPolicy kernel nodes) ptr flags).getLast? =
                some (debug (verdictText ptr outcome)) ↔
              texasGuard (publishedPolicy kernel nodes) ptr flags = .returns outcome := by
  have hsize := length_inorder_listToTree hkernel nodes
  refine ⟨?_, ?_, fun ptr flags => ⟨?_, getLast?_texasGuardLog _ ptr flags⟩⟩
  · have hvisits := listToTreeVisits_le hkernel hbalance regionOrdered_nil
      RbTree.redBlack_nil nodes
    rwa [hsize] at hvisits
  · have hlog := length_listToTreeLog hkernel regionOrdered_nil nodes
    rw [hsize] at hlog
    simpa using hlog
  · have htrail := (listToTree_redBlack hkernel hbalance regionOrdered_nil
      RbTree.redBlack_nil nodes).length_trail_le (lookupTurn ptr)
    rw [hsize] at htrail
    rw [length_texasGuardLog (rfl : (publishedPolicy kernel nodes).regionMap = some _)]
    omega

/-- A list whose last node is refused. -/
def rowNodes : List PolicyNode :=
  [⟨0x1000, 0x10, 1⟩, ⟨0x2000, 0x10, 3⟩, ⟨0x3000, 0x10, 1⟩, ⟨0x4000, 0x10, 2⟩, ⟨0x1000, 0x20, 3⟩]

example : texasGuardLog (publishedPolicy bottomUpRbtree rowNodes) 0x4008 1 =
    ["DEBUG: Checking address: 4008 with flags 1".toList,
      "DEBUG: Looking up address 4008\n".toList, "DEBUG: start: 2000\nend: 2010".toList,
      "DEBUG: start: 3000\nend: 3010".toList, "DEBUG: start: 4000\nend: 4010".toList,
      "DEBUG: Disallowed memory access on address: 4008".toList] := by
  decide +kernel

theorem publishedPolicy_cost_rowNodes :
    listToTreeVisits bottomUpRbtree .nil rowNodes ≤ 5 * (2 * Nat.log 2 (4 + 1)) ∧
      (listToTreeLog bottomUpRbtree .nil rowNodes).length = 5 + 4 ∧
      ∀ ptr flags,
        (texasGuardLog (publishedPolicy bottomUpRbtree rowNodes) ptr flags).length ≤
            2 * Nat.log 2 (4 + 1) + 3 ∧
          ∀ outcome,
            (texasGuardLog (publishedPolicy bottomUpRbtree rowNodes) ptr flags).getLast? =
                some (debug (verdictText ptr outcome)) ↔
              texasGuard (publishedPolicy bottomUpRbtree rowNodes) ptr flags = .returns outcome :=
  publishedPolicy_cost bottomUpRbtree_keepsOrder bottomUpRbtree_keepsBalance rowNodes

end Carat

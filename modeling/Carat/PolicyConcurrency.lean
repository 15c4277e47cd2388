import Carat.LabelledRun
import Carat.LinkedTree
import Carat.PolicyScan

/-!
# Writers, guards and readers at the same time

Nothing is locked.  A writer allocates a fresh root, inserts the nodes of its
list one by one and publishes the root with one store to
`test_policy.region_map`.  A guard or a reader loads `region_map` once and then
walks the tree record by record; between any two of these steps other threads
may take steps of their own.

The argument is ownership.  A root belongs to its writer until it is published
and to nobody afterwards; only the owner of a root writes to its records.  So
what a walk has in front of it never changes, and every walk ends as it would
have ended on the published list alone.
-/

namespace Carat

open SteeredTree LabelledRun

/-- Allocated `rb_root`s, each with its `rb_node`, and the region records. -/
structure Heap where
  roots : Ptr → Option (Option Ptr)
  nodes : Nodes MemoryRegion

def Heap.Fresh (heap : Heap) (p : Ptr) : Prop :=
  heap.roots p = none ∧ heap.nodes p = none

/-- `insert_region` of the new record `p`, on memory. -/
def Heap.insertRegion (kernel : KernelRbtree) (fuel : ℕ) (heap : Heap)
    (root p : Ptr) (newRegion : MemoryRegion) : Option Heap :=
  (heap.roots root).bind fun top =>
    (load heap.nodes fuel top).map fun tree =>
      match tree.descend (insertTurn newRegion.addr ∘ Prod.snd) with
      | .found _ _ =>
          -- refused: the record stays allocated and unlinked
          { heap with
            nodes := Function.update heap.nodes p
              (some ⟨newRegion, none, .red, none, none⟩) }
      | .vacant link =>
          let tree' := kernel.rbInsertColor (tree.linkNode (p, newRegion) link) link
          { roots := Function.update heap.roots root (some tree'.top)
            nodes := tree'.store heap.nodes none }

inductive Thread where
  | input (list : List PolicyNode) (root : Ptr) (todo : List PolicyNode)
  -- `texas_guard` once it has read `region_map`.
  | guard (ptr : BitVec 64) (flags : BitVec 32) (root : Ptr)
  -- `texas_guard` inside the loop of `lookup_region`.
  | search (ptr : BitVec 64) (flags : BitVec 32) (n : Option Ptr)
  -- `output_policy` once it has read `region_map`.
  | output (call : ReadCall) (ppos : ℤ) (root : Ptr)
  | print (call : ReadCall) (ppos : ℤ) (buf : List Char) (num : ℕ) (node : Cursor)
  | finished

inductive PolicyEvent where
  | publish (list : List PolicyNode)
  | guardReads (thread : ℕ) (ptr : BitVec 64) (flags : BitVec 32)
  | guardEnds (thread : ℕ) (outcome : GuardOutcome)
  | outputReads (thread : ℕ) (call : ReadCall) (ppos : ℤ)
  | outputEnds (thread : ℕ) (result : ReadResult)

def PolicyEvent.reader : PolicyEvent → Option ℕ
  | .guardReads thread _ _ => some thread
  | .outputReads thread _ _ => some thread
  | _ => none

def lastPublish (trace : List PolicyEvent) : Option (List PolicyNode) :=
  trace.foldl
    (fun last event =>
      match event with
      | .publish list => some list
      | _ => last)
    none

structure System where
  heap : Heap
  regionMap : Option Ptr
  threads : ℕ → Option Thread

def System.initial : System where
  heap := ⟨fun _ => none, fun _ => none⟩
  regionMap := none
  threads := fun _ => none

def System.set (system : System) (i : ℕ) (thread : Thread) : System :=
  { system with threads := Function.update system.threads i (some thread) }

/-- One atomic step of one thread.  Thread numbers are used once. -/
inductive Step (kernel : KernelRbtree) : System → List PolicyEvent → System → Prop where
  -- A write begins: `root = kmalloc(..); *root = RB_ROOT`.
  | allocate {system : System} {i : ℕ} {root : Ptr} (list : List PolicyNode) :
      system.threads i = none → system.heap.Fresh root →
        Step kernel system []
          ({ system with
              heap := { system.heap with
                roots := Function.update system.heap.roots root (some none) } }.set i
            (.input list root list))
  | insert {system : System} {i : ℕ} {list todo : List PolicyNode} {root p : Ptr}
      {node : PolicyNode} {fuel : ℕ} {heap : Heap} :
      system.threads i = some (.input list root (node :: todo)) →
        system.heap.Fresh p →
        system.heap.insertRegion kernel fuel root p node.toRegion = some heap →
        Step kernel system []
          ({ system with heap := heap }.set i (.input list root todo))
  | publish {system : System} {i : ℕ} {list : List PolicyNode} {root : Ptr} :
      system.threads i = some (.input list root []) →
        Step kernel system [.publish list]
          ({ system with regionMap := some root }.set i .finished)
  | guardReads {system : System} {i : ℕ} {root : Ptr} (ptr : BitVec 64)
      (flags : BitVec 32) :
      system.threads i = none → system.regionMap = some root →
        Step kernel system [.guardReads i ptr flags]
          (system.set i (.guard ptr flags root))
  | guardRoot {system : System} {i : ℕ} {ptr : BitVec 64} {flags : BitVec 32}
      {root : Ptr} {n : Option Ptr} :
      system.threads i = some (.guard ptr flags root) →
        system.heap.roots root = some n →
        Step kernel system [] (system.set i (.search ptr flags n))
  | searchLeft {system : System} {i : ℕ} {ptr : BitVec 64} {flags : BitVec 32}
      {n : Ptr} {cell : LinkedNode MemoryRegion} :
      system.threads i = some (.search ptr flags (some n)) →
        system.heap.nodes n = some cell → lookupTurn ptr cell.data = .lt →
        Step kernel system [] (system.set i (.search ptr flags cell.left))
  | searchRight {system : System} {i : ℕ} {ptr : BitVec 64} {flags : BitVec 32}
      {n : Ptr} {cell : LinkedNode MemoryRegion} :
      system.threads i = some (.search ptr flags (some n)) →
        system.heap.nodes n = some cell → lookupTurn ptr cell.data = .gt →
        Step kernel system [] (system.set i (.search ptr flags cell.right))
  | searchFound {system : System} {i : ℕ} {ptr : BitVec 64} {flags : BitVec 32}
      {n : Ptr} {cell : LinkedNode MemoryRegion} :
      system.threads i = some (.search ptr flags (some n)) →
        system.heap.nodes n = some cell → lookupTurn ptr cell.data = .eq →
        Step kernel system [.guardEnds i (guardVerdict flags (some cell.data))]
          (system.set i .finished)
  | searchNull {system : System} {i : ℕ} {ptr : BitVec 64} {flags : BitVec 32} :
      system.threads i = some (.search ptr flags none) →
        Step kernel system [.guardEnds i (guardVerdict flags none)]
          (system.set i .finished)
  | outputReads {system : System} {i : ℕ} {root : Ptr} (call : ReadCall) (ppos : ℤ) :
      system.threads i = none → ¬(ppos > 0 ∨ call.count < bufSize) →
        system.regionMap = some root →
        Step kernel system [.outputReads i call ppos]
          (system.set i (.output call ppos root))
  | outputRoot {system : System} {i : ℕ} {call : ReadCall} {ppos : ℤ} {root : Ptr}
      {n : Option Ptr} :
      system.threads i = some (.output call ppos root) →
        system.heap.roots root = some n →
        Step kernel system [] (system.set i (.print call ppos [] 0 (.first n)))
  | printMove {system : System} {i : ℕ} {call : ReadCall} {ppos : ℤ}
      {buf : List Char} {num : ℕ} {node node' : Cursor} :
      system.threads i = some (.print call ppos buf num node) →
        advance system.heap.nodes node = some (none, node') →
        Step kernel system [] (system.set i (.print call ppos buf num node'))
  | printRegion {system : System} {i : ℕ} {call : ReadCall} {ppos : ℤ}
      {buf buf' : List Char} {num : ℕ} {node node' : Cursor}
      {currRegion : MemoryRegion} :
      system.threads i = some (.print call ppos buf num node) →
        advance system.heap.nodes node = some (some currRegion, node') →
        sprintfAll buf (regionLines num currRegion) = .returns buf' →
        Step kernel system [] (system.set i (.print call ppos buf' (num + 1) node'))
  | printEnd {system : System} {i : ℕ} {call : ReadCall} {ppos : ℤ}
      {buf : List Char} {num : ℕ} :
      system.threads i = some (.print call ppos buf num .finished) →
        Step kernel system
          [.outputEnds i
            (if call.copyFails then ⟨-efault, ppos, []⟩
              else ⟨buf.length, buf.length, buf⟩)]
          (system.set i .finished)

/-! ## What the heap holds -/

/-- A root as the proof sees it: its tree, the nodes inserted so far, and the
writer that still owns it. -/
structure Site where
  tree : RbTree (Ptr × MemoryRegion)
  inserted : List PolicyNode
  owner : Option ℕ

abbrev Forest := Ptr → Option Site

/-- The records of a root are its own and spell the tree that `list_to_tree`
builds from the nodes inserted so far. -/
structure Site.Stands (kernel : KernelRbtree) (heap : Heap) (root : Ptr)
    (site : Site) : Prop where
  root : heap.roots root = some site.tree.top
  linked : Linked heap.nodes none site.tree.top site.tree
  nodup : site.tree.pointers.Nodup
  built : site.tree.map Prod.snd = listToTree kernel .nil site.inserted

structure Heap.Holds (kernel : KernelRbtree) (heap : Heap) (forest : Forest) :
    Prop where
  stands : ∀ root site, forest root = some site → site.Stands kernel heap root
  complete : ∀ root, forest root = none → heap.roots root = none
  apart : ∀ root root' site site', forest root = some site →
    forest root' = some site' → root ≠ root' →
      ∀ p ∈ site.tree.pointers, p ∉ site'.tree.pointers

/-- Nothing that does not belong to thread `i` has changed. -/
def Undisturbed (i : ℕ) (heap heap' : Heap) (forest forest' : Forest) : Prop :=
  ∀ root site, forest root = some site → site.owner ≠ some i →
    forest' root = some site ∧
      restrict heap'.nodes site.tree.pointers =
        restrict heap.nodes site.tree.pointers

theorem undisturbed_refl (i : ℕ) (heap : Heap) (forest : Forest) :
    Undisturbed i heap heap forest forest :=
  fun _ _ hsite _ => ⟨hsite, rfl⟩

theorem listToTree_append (kernel : KernelRbtree) (root : RbTree MemoryRegion)
    (first second : List PolicyNode) :
    listToTree kernel root (first ++ second) =
      listToTree kernel (listToTree kernel root first) second := by
  induction first generalizing root with
  | nil => rfl
  | cons node rest ih => exact ih _

section Insertion

variable {kernel : KernelRbtree} (hkernel : kernel.KeepsOrder)
  (hshape : kernel.ShapeOnly)

include hkernel hshape

/-- Inserting at records is inserting at regions; a new record joins. -/
theorem rbInsertColor_records {tree : RbTree (Ptr × MemoryRegion)} {p : Ptr}
    {newRegion : MemoryRegion} {link : Place}
    (hordered : RegionOrdered (tree.map Prod.snd))
    (hvacant : tree.descend (insertTurn newRegion.addr ∘ Prod.snd) = .vacant link) :
    (kernel.rbInsertColor (tree.linkNode (p, newRegion) link) link).map Prod.snd =
        (insertRegion kernel (tree.map Prod.snd) newRegion).2 ∧
      (kernel.rbInsertColor (tree.linkNode (p, newRegion) link) link).pointers.Perm
        (p :: tree.pointers) := by
  have hsharp : Sharp (insertTurn newRegion.addr ∘ Prod.snd) tree.inorder := by
    have hregions : Sharp (insertTurn newRegion.addr) (tree.map Prod.snd).inorder := by
      rw [insertTurn_eq_keySteer]
      exact hordered.sharp _
    rw [RbTree.inorder_map, Sharp, List.pairwise_map] at hregions
    exact hregions
  have hinsert : insertBy kernel (insertTurn newRegion.addr ∘ Prod.snd) (p, newRegion) tree =
      some (kernel.rbInsertColor (tree.linkNode (p, newRegion) link) link) := by
    simp [insertBy, hvacant]
  constructor
  · have hmap := map_insertBy hshape Prod.snd (insertTurn newRegion.addr) (p, newRegion) tree
    rw [hinsert] at hmap
    rw [insertRegion_eq_insertBy, ← hmap]
    rfl
  · rcases insertBy_cases hkernel hsharp (p, newRegion) with
      ⟨hnone, _⟩ | ⟨grown, before, after, hsome, hinorder, _, _, hgrown⟩
    · rw [hinsert] at hnone
      cases hnone
    · obtain rfl := Option.some.inj (hinsert.symm.trans hsome)
      rw [RbTree.pointers, hgrown, RbTree.pointers, hinorder]
      simp [List.perm_middle]

end Insertion

section HeapInsertion

variable {kernel : KernelRbtree} {heap heap' : Heap} {forest : Forest}
  {root p : Ptr} {site : Site} {i : ℕ}

theorem Site.Stands.frame (hstands : site.Stands kernel heap root)
    (hroot : heap'.roots root = heap.roots root)
    (hnodes : ∀ q ∈ site.tree.pointers, heap'.nodes q = heap.nodes q) :
    site.Stands kernel heap' root where
  root := hroot.trans hstands.root
  linked := hstands.linked.frame hnodes
  nodup := hstands.nodup
  built := hstands.built

/-- Thread `i` puts a site at a root that is new or its own; every other site
keeps its records. -/
theorem Heap.Holds.update (hholds : heap.Holds kernel forest) {site' : Site}
    (hstands : site'.Stands kernel heap' root)
    (hmine : ∀ old, forest root = some old → old.owner = some i)
    (hroots : ∀ r, r ≠ root → heap'.roots r = heap.roots r)
    (hothers : ∀ r other, r ≠ root → forest r = some other →
      ∀ q ∈ other.tree.pointers, heap'.nodes q = heap.nodes q ∧
        q ∉ site'.tree.pointers) :
    heap'.Holds kernel (Function.update forest root (some site')) ∧
      Undisturbed i heap heap' forest (Function.update forest root (some site')) := by
  refine ⟨⟨?_, ?_, ?_⟩, ?_⟩
  · intro r other hother
    by_cases hr : r = root
    · subst r
      rw [Function.update_self, Option.some.injEq] at hother
      exact hother ▸ hstands
    · rw [Function.update_of_ne hr] at hother
      exact (hholds.stands r other hother).frame (hroots r hr)
        fun q hq => (hothers r other hr hother q hq).1
  · intro r hnone
    have hr : r ≠ root := by
      rintro rfl
      simp at hnone
    rw [Function.update_of_ne hr] at hnone
    rw [hroots r hr, hholds.complete r hnone]
  · intro r r' first second hfirst hsecond hne q hq
    by_cases hr : r = root
    · subst r
      rw [Function.update_self, Option.some.injEq] at hfirst
      subst hfirst
      rw [Function.update_of_ne hne.symm] at hsecond
      exact fun hmem => (hothers r' second hne.symm hsecond q hmem).2 hq
    · rw [Function.update_of_ne hr] at hfirst
      by_cases hr' : r' = root
      · subst r'
        rw [Function.update_self, Option.some.injEq] at hsecond
        subst hsecond
        exact (hothers r first hr hfirst q hq).2
      · rw [Function.update_of_ne hr'] at hsecond
        exact hholds.apart r r' first second hfirst hsecond hne q hq
  · intro r other hother hforeign
    have hr : r ≠ root := by
      rintro rfl
      exact hforeign (hmine other hother)
    exact ⟨by rw [Function.update_of_ne hr, hother],
      restrict_congr fun q hq => (hothers r other hr hother q hq).1⟩

/-- A writer may rebuild its own site from its own records and a fresh one. -/
theorem Heap.Holds.replace (hholds : heap.Holds kernel forest)
    (hsite : forest root = some site) (howner : site.owner = some i)
    (hfresh : heap.Fresh p) {site' : Site} (hstands : site'.Stands kernel heap' root)
    (hpointers : ∀ q ∈ site'.tree.pointers, q = p ∨ q ∈ site.tree.pointers)
    (hroots : ∀ r, r ≠ root → heap'.roots r = heap.roots r)
    (hnodes : ∀ q, q ≠ p → q ∉ site.tree.pointers → heap'.nodes q = heap.nodes q) :
    heap'.Holds kernel (Function.update forest root (some site')) ∧
      Undisturbed i heap heap' forest (Function.update forest root (some site')) := by
  refine hholds.update hstands ?_ hroots ?_
  · intro old hold
    obtain rfl : site = old := by simpa [hsite] using hold
    exact howner
  · intro r other hne hother q hq
    have hqp : q ≠ p := by
      rintro rfl
      exact (hholds.stands r other hother).linked.ne_none hq hfresh.2
    have hqsite := hholds.apart r root other site hother hsite hne q hq
    exact ⟨hnodes q hqp hqsite, fun hmem => (hpointers q hmem).elim hqp hqsite⟩

variable (hkernel : kernel.KeepsOrder) (hshape : kernel.ShapeOnly)

include hkernel hshape

theorem Heap.Holds.afterInsert (hholds : heap.Holds kernel forest)
    (hsite : forest root = some site) (howner : site.owner = some i)
    (hfresh : heap.Fresh p) {node : PolicyNode} {fuel : ℕ}
    (hinsert : heap.insertRegion kernel fuel root p node.toRegion = some heap') :
    ∃ site' : Site, site'.inserted = site.inserted ++ [node] ∧
      site'.owner = some i ∧
      heap'.Holds kernel (Function.update forest root (some site')) ∧
      Undisturbed i heap heap' forest (Function.update forest root (some site')) := by
  have hstands := hholds.stands root site hsite
  have hp : p ∉ site.tree.pointers := fun hmem =>
    hstands.linked.ne_none hmem hfresh.2
  have hordered : RegionOrdered (site.tree.map Prod.snd) := by
    rw [hstands.built]
    exact listToTree_ordered hkernel regionOrdered_nil _
  simp only [Heap.insertRegion, hstands.root, Option.bind_some,
    Option.map_eq_some_iff] at hinsert
  obtain ⟨tree, hload, rfl⟩ := hinsert
  obtain rfl := hstands.linked.eq_of_load hload
  cases hdescend : site.tree.descend (insertTurn node.toRegion.addr ∘ Prod.snd) with
  | found place found =>
      have hmap := RbTree.descend_map (insertTurn node.toRegion.addr) Prod.snd site.tree
      rw [hdescend] at hmap
      refine ⟨{ site with inserted := site.inserted ++ [node] }, rfl, howner,
        hholds.replace hsite howner hfresh ?_ (fun q hq => Or.inr hq)
          (fun r _ => rfl) (fun q hq _ => Function.update_of_ne hq ..)⟩
      have hframed : site.Stands kernel
          ⟨heap.roots, Function.update heap.nodes p
            (some ⟨node.toRegion, none, .red, none, none⟩)⟩ root :=
        hstands.frame rfl
          (fun q hq => Function.update_of_ne (ne_of_mem_of_not_mem hq hp) ..)
      refine ⟨hframed.root, hframed.linked, hframed.nodup, ?_⟩
      simp [listToTree_append, ← hstands.built, listToTree, Carat.insertRegion, hmap]
  | vacant link =>
      obtain ⟨hbuilt, hperm⟩ :=
        rbInsertColor_records hkernel hshape (p := p) hordered hdescend
      have hnodup := hperm.nodup_iff.mpr (List.nodup_cons.mpr ⟨hp, hstands.nodup⟩)
      refine ⟨⟨_, site.inserted ++ [node], some i⟩, rfl, rfl,
        hholds.replace hsite howner hfresh
          ⟨Function.update_self .., RbTree.linked_store heap.nodes none hnodup, hnodup,
            ?_⟩
          (fun q hq => List.mem_cons.mp (hperm.mem_iff.mp hq))
          (fun r hr => Function.update_of_ne hr ..) ?_⟩
      · simp [listToTree_append, ← hstands.built, listToTree, hbuilt]
      · intro q hq hqsite
        exact RbTree.store_of_not_mem fun hmem =>
          (List.mem_cons.mp (hperm.mem_iff.mp hmem)).elim hq hqsite

end HeapInsertion

/-! ## What the threads hold -/

/-- The last time thread `i` read `region_map` it did so with this event, and
`list` was the list published last. -/
def ReadsLatest (i : ℕ) (trace : List PolicyEvent) (read : PolicyEvent)
    (list : List PolicyNode) : Prop :=
  ∃ before mid, trace = before ++ read :: mid ∧
    (∀ event ∈ mid, event.reader ≠ some i) ∧ lastPublish before = some list

theorem readsLatest_here {i : ℕ} {trace : List PolicyEvent} {list : List PolicyNode}
    (hlast : lastPublish trace = some list) (read : PolicyEvent) :
    ReadsLatest i (trace ++ [read]) read list :=
  ⟨trace, [], rfl, by simp, hlast⟩

theorem ReadsLatest.append {i : ℕ} {trace events : List PolicyEvent} {read : PolicyEvent}
    {list : List PolicyNode} (hreads : ReadsLatest i trace read list)
    (hevents : ∀ event ∈ events, event.reader ≠ some i) :
    ReadsLatest i (trace ++ events) read list := by
  obtain ⟨before, mid, rfl, hmid, hlast⟩ := hreads
  refine ⟨before, mid ++ events, by simp, ?_, hlast⟩
  intro event hevent
  exact (List.mem_append.mp hevent).elim (hmid event) (hevents event)

/-- A walk is inside a published site: nobody will change it any more. -/
structure Forest.Shows (forest : Forest) (trace : List PolicyEvent) (i : ℕ) (read : PolicyEvent)
    (root : Ptr) (site : Site) : Prop where
  stands : forest root = some site
  published : site.owner = none
  latest : ReadsLatest i trace read site.inserted

def Site.regions (kernel : KernelRbtree) (site : Site) : RbTree MemoryRegion :=
  listToTree kernel .nil site.inserted

def ThreadGood (kernel : KernelRbtree) (heap : Heap) (forest : Forest)
    (trace : List PolicyEvent) (i : ℕ) : Thread → Prop
  | .input list root todo =>
      ∃ site, forest root = some site ∧ site.owner = some i ∧
        list = site.inserted ++ todo
  | .guard ptr flags root =>
      ∃ site, forest.Shows trace i (.guardReads i ptr flags) root site
  | .search ptr flags n =>
      ∃ root site, forest.Shows trace i (.guardReads i ptr flags) root site ∧
        Seeks (restrict heap.nodes site.tree.pointers) (lookupTurn ptr) n
          ((site.regions kernel).descend (lookupTurn ptr)).data?
  | .output call ppos root =>
      ¬(ppos > 0 ∨ call.count < bufSize) ∧
        ∃ site, forest.Shows trace i (.outputReads i call ppos) root site
  | .print call ppos buf num node =>
      ¬(ppos > 0 ∨ call.count < bufSize) ∧
        ∃ root site rest, forest.Shows trace i (.outputReads i call ppos) root site ∧
          Traverses (restrict heap.nodes site.tree.pointers) node rest ∧
          outputLoop num buf rest = outputLoop 0 [] (site.regions kernel).inorder
  | .finished => True

section Interference

variable {kernel : KernelRbtree} {heap heap' : Heap} {forest forest' : Forest}
  {trace events : List PolicyEvent} {i j : ℕ}

theorem Forest.Shows.undisturbed {read : PolicyEvent} {root : Ptr} {site : Site}
    (hshows : forest.Shows trace j read root site)
    (hundisturbed : Undisturbed i heap heap' forest forest')
    (hevents : ∀ event ∈ events, event.reader ≠ some j) :
    forest'.Shows (trace ++ events) j read root site ∧
      restrict heap'.nodes site.tree.pointers =
        restrict heap.nodes site.tree.pointers := by
  have hforeign : site.owner ≠ some i := by simp [hshows.published]
  obtain ⟨hstands, hnodes⟩ := hundisturbed root site hshows.stands hforeign
  exact ⟨⟨hstands, hshows.published, hshows.latest.append hevents⟩, hnodes⟩

theorem ThreadGood.undisturbed {thread : Thread}
    (hgood : ThreadGood kernel heap forest trace j thread)
    (hundisturbed : Undisturbed i heap heap' forest forest') (hother : j ≠ i)
    (hevents : ∀ event ∈ events, event.reader ≠ some j) :
    ThreadGood kernel heap' forest' (trace ++ events) j thread := by
  cases thread with
  | input list root todo =>
      obtain ⟨site, hsite, howner, hlist⟩ := hgood
      have hforeign : site.owner ≠ some i := by
        rw [howner]
        simpa using hother
      exact ⟨site, (hundisturbed root site hsite hforeign).1, howner, hlist⟩
  | guard ptr flags root =>
      obtain ⟨site, hshows⟩ := hgood
      exact ⟨site, (hshows.undisturbed hundisturbed hevents).1⟩
  | search ptr flags n =>
      obtain ⟨root, site, hshows, hseeks⟩ := hgood
      obtain ⟨hshows', hnodes⟩ := hshows.undisturbed hundisturbed hevents
      exact ⟨root, site, hshows', hnodes ▸ hseeks⟩
  | output call ppos root =>
      obtain ⟨hopen, site, hshows⟩ := hgood
      exact ⟨hopen, site, (hshows.undisturbed hundisturbed hevents).1⟩
  | print call ppos buf num node =>
      obtain ⟨hopen, root, site, rest, hshows, htraverses, hrest⟩ := hgood
      obtain ⟨hshows', hnodes⟩ := hshows.undisturbed hundisturbed hevents
      exact ⟨hopen, root, site, rest, hshows', hnodes ▸ htraverses, hrest⟩
  | finished => trivial

end Interference

structure System.Coherent (kernel : KernelRbtree) (trace : List PolicyEvent)
    (forest : Forest) (system : System) : Prop where
  holds : system.heap.Holds kernel forest
  published : ∀ root, system.regionMap = some root →
    ∃ site, forest root = some site ∧ site.owner = none ∧
      lastPublish trace = some site.inserted
  threads : ∀ i thread, system.threads i = some thread →
    ThreadGood kernel system.heap forest trace i thread

theorem coherent_initial (kernel : KernelRbtree) :
    System.initial.Coherent kernel [] (fun _ => none) where
  holds := ⟨by simp, fun _ _ => rfl, by simp⟩
  published := by simp [System.initial]
  threads := by simp [System.initial]

theorem System.Coherent.next {kernel : KernelRbtree} {trace events : List PolicyEvent}
    {forest forest' : Forest} {system : System}
    (hcoherent : system.Coherent kernel trace forest) {i : ℕ} {heap' : Heap}
    {regionMap' : Option Ptr} {thread : Thread}
    (hholds : heap'.Holds kernel forest')
    (hundisturbed : Undisturbed i system.heap heap' forest forest')
    (hevents : ∀ event ∈ events, ∀ j, j ≠ i → event.reader ≠ some j)
    (hpublished : ∀ root, regionMap' = some root →
      ∃ site, forest' root = some site ∧ site.owner = none ∧
        lastPublish (trace ++ events) = some site.inserted)
    (hthread : ThreadGood kernel heap' forest' (trace ++ events) i thread) :
    System.Coherent kernel (trace ++ events) forest'
      ⟨heap', regionMap', Function.update system.threads i (some thread)⟩ where
  holds := hholds
  published := hpublished
  threads := by
    intro j other hother
    by_cases hj : j = i
    · subst j
      obtain rfl : thread = other := by simpa using hother
      exact hthread
    · simp only [Function.update_of_ne hj] at hother
      exact (hcoherent.threads j other hother).undisturbed hundisturbed hj
        fun event hevent => hevents event hevent j hj

/-- What `region_map` points to survives steps that publish nothing. -/
theorem System.Coherent.stays_published {kernel : KernelRbtree}
    {trace events : List PolicyEvent} {forest forest' : Forest} {system : System}
    (hcoherent : system.Coherent kernel trace forest) {i : ℕ} {heap' : Heap}
    (hundisturbed : Undisturbed i system.heap heap' forest forest')
    (hevents : lastPublish (trace ++ events) = lastPublish trace) :
    ∀ root, system.regionMap = some root →
      ∃ site, forest' root = some site ∧ site.owner = none ∧
        lastPublish (trace ++ events) = some site.inserted := by
  intro root hroot
  obtain ⟨site, hsite, howner, hlast⟩ := hcoherent.published root hroot
  have hforeign : site.owner ≠ some i := by simp [howner]
  exact ⟨site, (hundisturbed root site hsite hforeign).1, howner, by rw [hevents, hlast]⟩

theorem System.Coherent.writes {kernel : KernelRbtree} {trace : List PolicyEvent}
    {forest forest' : Forest} {system : System}
    (hcoherent : system.Coherent kernel trace forest) {i : ℕ} {heap' : Heap}
    {thread : Thread} (hholds : heap'.Holds kernel forest')
    (hundisturbed : Undisturbed i system.heap heap' forest forest')
    (hthread : ThreadGood kernel heap' forest' trace i thread) :
    ({ system with heap := heap' }.set i thread).Coherent kernel trace forest' := by
  rw [← List.append_nil trace] at hthread ⊢
  exact hcoherent.next hholds hundisturbed (by simp)
    (hcoherent.stays_published hundisturbed (by simp)) hthread

theorem System.Coherent.set {kernel : KernelRbtree} {trace events : List PolicyEvent}
    {forest : Forest} {system : System}
    (hcoherent : system.Coherent kernel trace forest) {i : ℕ} {thread : Thread}
    (hevents : ∀ event ∈ events, ∀ j, j ≠ i → event.reader ≠ some j)
    (hlast : lastPublish (trace ++ events) = lastPublish trace)
    (hthread : ThreadGood kernel system.heap forest (trace ++ events) i thread) :
    (system.set i thread).Coherent kernel (trace ++ events) forest :=
  hcoherent.next hcoherent.holds (undisturbed_refl i _ _) hevents
    (hcoherent.stays_published (undisturbed_refl i _ _) hlast) hthread

/-- How a completed guard or reader is to be explained: by the list published
last when it read `region_map`. -/
def Justified (kernel : KernelRbtree) (before : List PolicyEvent) : PolicyEvent → Prop
  | .guardEnds i outcome =>
      ∃ ptr flags list, ReadsLatest i before (.guardReads i ptr flags) list ∧
        texasGuard (publishedPolicy kernel list) ptr flags = .returns outcome
  | .outputEnds i result =>
      ∃ call ppos list, ReadsLatest i before (.outputReads i call ppos) list ∧
        outputPolicy (publishedPolicy kernel list) call ppos = .returns result
  | _ => True

def Good (kernel : KernelRbtree) (trace : List PolicyEvent) (system : System) : Prop :=
  (∃ forest, system.Coherent kernel trace forest) ∧ Explained (Justified kernel) trace

theorem System.Coherent.silent {kernel : KernelRbtree} {trace : List PolicyEvent}
    {forest : Forest} {system : System}
    (hcoherent : system.Coherent kernel trace forest) {i : ℕ} {thread : Thread}
    (hthread : ThreadGood kernel system.heap forest trace i thread) :
    (system.set i thread).Coherent kernel trace forest := by
  rw [← List.append_nil trace] at hthread ⊢
  exact hcoherent.set (by simp) (by simp) hthread

section Steps

variable {kernel : KernelRbtree} {trace : List PolicyEvent} {forest : Forest}
  {system : System} (hcoherent : system.Coherent kernel trace forest) {i : ℕ}

include hcoherent

theorem allocate_coherent {root : Ptr} (hfresh : system.heap.Fresh root)
    (list : List PolicyNode) :
    ∃ forest', System.Coherent kernel trace forest'
      ({ system with
          heap := { system.heap with
            roots := Function.update system.heap.roots root (some none) } }.set i
        (.input list root list)) := by
  have hvacant : ∀ old, forest root ≠ some old := by
    intro old hold
    have hroot := (hcoherent.holds.stands root old hold).root
    rw [hfresh.1] at hroot
    simp at hroot
  let site : Site := ⟨.nil, [], some i⟩
  let heap' : Heap := { system.heap with
    roots := Function.update system.heap.roots root (some none) }
  have hstands : site.Stands kernel heap' root :=
    ⟨Function.update_self .., .nil, List.nodup_nil, rfl⟩
  obtain ⟨hholds, hundisturbed⟩ := hcoherent.holds.update (i := i) hstands
    (fun old hold => absurd hold (hvacant old))
    (fun r hr => Function.update_of_ne hr ..)
    (fun r other hne hother q hq => ⟨rfl, by simp [site]⟩)
  exact ⟨_, hcoherent.writes hholds hundisturbed ⟨site, Function.update_self .., rfl, rfl⟩⟩

theorem insert_coherent (hkernel : kernel.KeepsOrder) (hshape : kernel.ShapeOnly)
    {list todo : List PolicyNode} {root p : Ptr} {node : PolicyNode} {fuel : ℕ}
    {heap : Heap} (hthread : system.threads i = some (.input list root (node :: todo)))
    (hfresh : system.heap.Fresh p)
    (hinsert :
      system.heap.insertRegion kernel fuel root p node.toRegion = some heap) :
    ∃ forest', System.Coherent kernel trace forest'
      ({ system with heap := heap }.set i (.input list root todo)) := by
  obtain ⟨site, hsite, howner, hlist⟩ := hcoherent.threads i _ hthread
  obtain ⟨site', hinserted, howner', hholds, hundisturbed⟩ :=
    hcoherent.holds.afterInsert hkernel hshape hsite howner hfresh hinsert
  exact ⟨_, hcoherent.writes hholds hundisturbed
    ⟨site', Function.update_self .., howner', by simp [hlist, hinserted]⟩⟩

theorem publish_coherent {list : List PolicyNode} {root : Ptr}
    (hthread : system.threads i = some (.input list root [])) :
    ∃ forest', System.Coherent kernel (trace ++ [.publish list]) forest'
      ({ system with regionMap := some root }.set i .finished) := by
  obtain ⟨site, hsite, howner, hlist⟩ := hcoherent.threads i _ hthread
  obtain ⟨hroot, hlinked, hnodup, hbuilt⟩ := hcoherent.holds.stands root site hsite
  -- the writer gives the site up; nothing in memory but `region_map` changes
  let site' : Site := { site with owner := none }
  have hstands : site'.Stands kernel system.heap root :=
    ⟨hroot, hlinked, hnodup, hbuilt⟩
  obtain ⟨hholds, hundisturbed⟩ := hcoherent.holds.update hstands
    (fun old hold => by
      obtain rfl : site = old := by simpa [hsite] using hold
      exact howner)
    (fun _ _ => rfl)
    (fun r other hne hother q hq =>
      ⟨rfl, hcoherent.holds.apart r root other site hother hsite hne q hq⟩)
  refine ⟨_, hcoherent.next hholds hundisturbed (by simp [PolicyEvent.reader]) ?_ trivial⟩
  intro r hr
  obtain rfl : root = r := by simpa using hr
  exact ⟨site', Function.update_self .., rfl, by simp [lastPublish, hlist, site']⟩

/-- A walk starts at the root that is current, and remembers its list. -/
theorem shows_current {root : Ptr} (hroot : system.regionMap = some root) (read : PolicyEvent) :
    ∃ site, forest.Shows (trace ++ [read]) i read root site := by
  obtain ⟨site, hsite, howner, hlast⟩ := hcoherent.published root hroot
  exact ⟨site, hsite, howner, readsLatest_here hlast read⟩

theorem guardRoot_coherent {ptr : BitVec 64} {flags : BitVec 32} {root : Ptr}
    {n : Option Ptr} (hthread : system.threads i = some (.guard ptr flags root))
    (hroot : system.heap.roots root = some n) :
    (system.set i (.search ptr flags n)).Coherent kernel trace forest := by
  obtain ⟨site, hshows⟩ := hcoherent.threads i _ hthread
  have hstands := hcoherent.holds.stands root site hshows.stands
  obtain rfl : site.tree.top = n := by simpa [hstands.root] using hroot
  have hseeks := hstands.linked.restrict.seeks (lookupTurn ptr)
  rw [hstands.built] at hseeks
  exact hcoherent.silent ⟨root, site, hshows, hseeks⟩

theorem search_coherent {ptr : BitVec 64} {flags : BitVec 32} {n next : Option Ptr}
    (hthread : system.threads i = some (.search ptr flags n))
    (hturn : ∀ pointers result,
      Seeks (restrict system.heap.nodes pointers) (lookupTurn ptr) n result →
        Seeks (restrict system.heap.nodes pointers) (lookupTurn ptr) next result) :
    (system.set i (.search ptr flags next)).Coherent kernel trace forest := by
  obtain ⟨root, site, hshows, hseeks⟩ := hcoherent.threads i _ hthread
  exact hcoherent.silent ⟨root, site, hshows, hturn _ _ hseeks⟩

theorem searchEnds_justified {ptr : BitVec 64} {flags : BitVec 32} {n : Option Ptr}
    {found : Option MemoryRegion}
    (hthread : system.threads i = some (.search ptr flags n))
    (hends : ∀ pointers result,
      Seeks (restrict system.heap.nodes pointers) (lookupTurn ptr) n result →
        result = found) :
    Justified kernel trace (.guardEnds i (guardVerdict flags found)) := by
  obtain ⟨root, site, hshows, hseeks⟩ := hcoherent.threads i _ hthread
  refine ⟨ptr, flags, site.inserted, hshows.latest, ?_⟩
  have hfound := hends _ _ hseeks
  rw [← lookupRegion_data] at hfound
  rw [← hfound]
  rfl

theorem outputRoot_coherent {call : ReadCall} {ppos : ℤ} {root : Ptr} {n : Option Ptr}
    (hthread : system.threads i = some (.output call ppos root))
    (hroot : system.heap.roots root = some n) :
    (system.set i (.print call ppos [] 0 (.first n))).Coherent kernel trace forest := by
  obtain ⟨hopen, site, hshows⟩ := hcoherent.threads i _ hthread
  have hstands := hcoherent.holds.stands root site hshows.stands
  obtain rfl : site.tree.top = n := by simpa [hstands.root] using hroot
  have htraverses := hstands.linked.restrict.traverses hstands.nodup
  rw [hstands.built] at htraverses
  exact hcoherent.silent ⟨hopen, root, site, _, hshows, htraverses, rfl⟩

/-- One move of the cursor; a visited region is printed by the same move. -/
theorem print_coherent {call : ReadCall} {ppos : ℤ} {buf buf' : List Char}
    {num num' : ℕ} {node node' : Cursor} {visited : Option MemoryRegion}
    (hthread : system.threads i = some (.print call ppos buf num node))
    (hmove : advance system.heap.nodes node = some (visited, node'))
    (hprints : ∀ rest, outputLoop num buf (visited.toList ++ rest) =
      outputLoop num' buf' rest) :
    (system.set i (.print call ppos buf' num' node')).Coherent kernel trace forest := by
  obtain ⟨hopen, root, site, rest, hshows, htraverses, hrest⟩ :=
    hcoherent.threads i _ hthread
  obtain ⟨rest', rfl, htraverses'⟩ := htraverses.next hmove
  rw [hprints] at hrest
  exact hcoherent.silent ⟨hopen, root, site, rest', hshows, htraverses', hrest⟩

theorem printEnd_justified {call : ReadCall} {ppos : ℤ} {buf : List Char} {num : ℕ}
    (hthread : system.threads i = some (.print call ppos buf num .finished)) :
    Justified kernel trace
      (.outputEnds i
        (if call.copyFails then ⟨-efault, ppos, []⟩
          else ⟨buf.length, buf.length, buf⟩)) := by
  obtain ⟨hopen, root, site, rest, hshows, htraverses, hrest⟩ :=
    hcoherent.threads i _ hthread
  obtain rfl := htraverses.rest_nil
  refine ⟨call, ppos, site.inserted, hshows.latest, ?_⟩
  have hloop : outputLoop 0 [] (listToTree kernel .nil site.inserted).inorder =
      .returns buf := hrest.symm
  simp only [outputPolicy, hopen, if_false, publishedPolicy, hloop, Outcome.bind_returns]
  split <;> rfl

theorem finish_coherent {event : PolicyEvent} (hreader : event.reader = none)
    (hlast : lastPublish (trace ++ [event]) = lastPublish trace) :
    (system.set i .finished).Coherent kernel (trace ++ [event]) forest :=
  hcoherent.set (by simp [hreader]) hlast trivial

end Steps

theorem step_good {kernel : KernelRbtree} (hkernel : kernel.KeepsOrder)
    (hshape : kernel.ShapeOnly) {trace events : List PolicyEvent} {system next : System}
    (hgood : Good kernel trace system) (hstep : Step kernel system events next) :
    Good kernel (trace ++ events) next := by
  obtain ⟨⟨forest, hcoherent⟩, hexplained⟩ := hgood
  have hsilent : ∀ {next : System}, (∃ forest, next.Coherent kernel trace forest) →
      Good kernel (trace ++ []) next := by
    intro next hnext
    rw [List.append_nil]
    exact ⟨hnext, hexplained⟩
  have hlast : ∀ events, lastPublish (trace ++ events) =
      events.foldl (fun last event =>
        match event with
        | .publish list => some list
        | _ => last) (lastPublish trace) := by
    intro events
    exact List.foldl_append ..
  cases hstep with
  | allocate list _ hfresh =>
      exact hsilent (allocate_coherent hcoherent hfresh list)
  | insert hthread hfresh hinsert =>
      exact hsilent (insert_coherent hcoherent hkernel hshape hthread hfresh hinsert)
  | publish hthread =>
      exact ⟨publish_coherent hcoherent hthread, hexplained.snoc trivial⟩
  | guardReads ptr flags _ hroot =>
      obtain ⟨site, hshows⟩ := shows_current hcoherent hroot _
      refine ⟨⟨forest, hcoherent.set ?_ (hlast _) ⟨site, hshows⟩⟩, hexplained.snoc trivial⟩
      simp [PolicyEvent.reader, eq_comm]
  | guardRoot hthread hroot =>
      exact hsilent ⟨forest, guardRoot_coherent hcoherent hthread hroot⟩
  | searchLeft hthread hcell hturn =>
      refine hsilent ⟨forest,
        search_coherent hcoherent hthread fun pointers result hseeks => ?_⟩
      simpa only [hturn] using hseeks.next hcell
  | searchRight hthread hcell hturn =>
      refine hsilent ⟨forest,
        search_coherent hcoherent hthread fun pointers result hseeks => ?_⟩
      simpa only [hturn] using hseeks.next hcell
  | searchFound hthread hcell hturn =>
      refine ⟨⟨forest, finish_coherent hcoherent rfl (hlast _)⟩, hexplained.snoc ?_⟩
      refine searchEnds_justified hcoherent hthread fun pointers result hseeks => ?_
      simpa only [hturn] using hseeks.next hcell
  | searchNull hthread =>
      refine ⟨⟨forest, finish_coherent hcoherent rfl (hlast _)⟩, hexplained.snoc ?_⟩
      exact searchEnds_justified hcoherent hthread fun _ _ hseeks => hseeks.result_none
  | outputReads call ppos _ hopen hroot =>
      obtain ⟨site, hshows⟩ := shows_current hcoherent hroot _
      refine ⟨⟨forest, hcoherent.set ?_ (hlast _) ⟨hopen, site, hshows⟩⟩,
        hexplained.snoc trivial⟩
      simp [PolicyEvent.reader, eq_comm]
  | outputRoot hthread hroot =>
      exact hsilent ⟨forest, outputRoot_coherent hcoherent hthread hroot⟩
  | printMove hthread hmove =>
      exact hsilent ⟨forest, print_coherent hcoherent hthread hmove fun rest => rfl⟩
  | printRegion hthread hmove hprints =>
      refine hsilent ⟨forest, print_coherent hcoherent hthread hmove fun rest => ?_⟩
      simp [outputLoop, hprints]
  | printEnd hthread =>
      exact ⟨⟨forest, finish_coherent hcoherent rfl (hlast _)⟩,
        hexplained.snoc (printEnd_justified hcoherent hthread)⟩

/-- In every interleaving, a guard that ends and a reader that ends give exactly
what the list published last when they read `region_map` gives on its own. -/
theorem concurrent_walks_justified {kernel : KernelRbtree}
    (hkernel : kernel.KeepsOrder) (hshape : kernel.ShapeOnly)
    {trace : List PolicyEvent} {system : System}
    (hrun : Run (Step kernel) System.initial trace system) :
    Explained (Justified kernel) trace := by
  have hstart : Good kernel [] System.initial :=
    ⟨⟨_, coherent_initial kernel⟩, explained_nil _⟩
  have hgood := hrun.invariant (Good kernel) hstart
    fun _ _ _ _ hgood hstep => step_good hkernel hshape hgood hstep
  exact hgood.2

theorem concurrent_walks_justified_twoWriters :
    ∃ system,
      Run (Step bottomUpRbtree) System.initial
        [.publish [⟨0x1000, 0x10, 1⟩], .guardReads 2 0x1008 1,
          .publish [⟨0x1000, 0x10, 0⟩], .guardEnds 2 .allowed] system ∧
      Explained (Justified bottomUpRbtree)
        [.publish [⟨0x1000, 0x10, 1⟩], .guardReads 2 0x1008 1,
          .publish [⟨0x1000, 0x10, 0⟩], .guardEnds 2 .allowed] := by
  -- the second policy is built and published in the middle of the walk
  have hallocate := Run.nil.snoc
    (@Step.allocate bottomUpRbtree System.initial 0 10 [⟨0x1000, 0x10, 1⟩] rfl ⟨rfl, rfl⟩)
  have hinsert := hallocate.snoc
    (@Step.insert _ _ 0 [⟨0x1000, 0x10, 1⟩] [] 10 11 ⟨0x1000, 0x10, 1⟩ 1 _ rfl
      ⟨rfl, rfl⟩ rfl)
  have hpublish := hinsert.snoc (Step.publish (i := 0) rfl)
  have hreads := hpublish.snoc (Step.guardReads (i := 2) 0x1008 1 rfl rfl)
  have hroot := hreads.snoc (Step.guardRoot (i := 2) rfl rfl)
  have hallocate' := hroot.snoc
    (@Step.allocate _ _ 1 20 [⟨0x1000, 0x10, 0⟩] rfl ⟨rfl, rfl⟩)
  have hinsert' := hallocate'.snoc
    (@Step.insert _ _ 1 [⟨0x1000, 0x10, 0⟩] [] 20 21 ⟨0x1000, 0x10, 0⟩ 1 _ rfl
      ⟨rfl, rfl⟩ rfl)
  have hpublish' := hinsert'.snoc (Step.publish (i := 1) rfl)
  have hends := hpublish'.snoc (Step.searchFound (i := 2) rfl rfl (by decide))
  exact ⟨_, hends, concurrent_walks_justified bottomUpRbtree_keepsOrder
    bottomUpRbtree_shapeOnly hends⟩

end Carat

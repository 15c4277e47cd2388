import Carat.WaitFreedom

/-!
# Readers come to an end

`rb_first` and `rb_next` may follow many links to get from one region to the next,
but over the whole list every region is met four times.  A reader that has read
`region_map` therefore ends after a number of steps that the list published last
then fixes, whatever is published while it prints.
-/

namespace Carat

open SteeredTree LabelledRun

/-- How many steps of its own a reader has still to take. -/
inductive Thread.Prints (heap : Heap) : Thread → ℕ → Prop where
  | output {call : ReadCall} {ppos : ℤ} {root : Ptr} {n : Option Ptr} {moves : ℕ} :
      heap.roots root = some n → WalkEnds heap.nodes (.first n) moves →
        Prints heap (.output call ppos root) (moves + 2)
  | print {call : ReadCall} {ppos : ℤ} {buf : List Char} {num : ℕ} {node : Cursor}
      {moves : ℕ} : WalkEnds heap.nodes node moves →
        Prints heap (.print call ppos buf num node) (moves + 1)
  | finished : Prints heap .finished 0

theorem Thread.Prints.finished_iff {heap : Heap} {thread : Thread} {left : ℕ}
    (hprints : thread.Prints heap left) : thread = .finished ↔ left = 0 := by
  cases hprints <;> simp

theorem Thread.Prints.unique {heap : Heap} {thread : Thread} {left left' : ℕ}
    (hprints : thread.Prints heap left) (hprints' : thread.Prints heap left') :
    left = left' := by
  cases hprints with
  | output hroot hends =>
      cases hprints' with
      | output hroot' hends' =>
          obtain rfl := Option.some.inj (hroot.symm.trans hroot')
          rw [hends.unique hends']
  | print hends =>
      cases hprints' with
      | print hends' => rw [hends.unique hends']
  | finished =>
      cases hprints'
      rfl

theorem ReadsLatest.unique {i : ℕ} {trace : List PolicyEvent} {read read' : PolicyEvent}
    {list list' : List PolicyNode} (hreads : ReadsLatest i trace read list)
    (hread : read.reader = some i) (hreads' : ReadsLatest i trace read' list')
    (hread' : read'.reader = some i) : list = list' := by
  obtain ⟨before, mid, hsplit, hmid, hlast⟩ := hreads
  obtain ⟨before', mid', hsplit', hmid', hlast'⟩ := hreads'
  obtain ⟨rfl, _⟩ := last_unique (fun event => event.reader = some i) (hsplit.symm.trans hsplit')
    hread hread' hmid hmid'
  exact Option.some.inj (hlast.symm.trans hlast')

section Steps

variable {kernel : KernelRbtree} {trace events : List PolicyEvent} {forest : Forest}
  {system next : System}

/-- A thread reads `region_map` once, with its first step. -/
theorem Step.reads_first (hstep : Step kernel system events next) {i : ℕ} {thread : Thread}
    (hthread : system.threads i = some thread) : ∀ event ∈ events, event.reader ≠ some i := by
  cases hstep <;> grind [PolicyEvent.reader]

theorem Step.output_cases (hstep : Step kernel system events next) {i : ℕ}
    (hchanged : next.threads i ≠ system.threads i) {call : ReadCall} {ppos : ℤ} {root : Ptr}
    (hthread : system.threads i = some (.output call ppos root)) :
    ∃ n, system.heap.roots root = some n ∧ next.heap = system.heap ∧
      next.threads i = some (.print call ppos [] 0 (.first n)) := by
  cases hstep <;> grind [System.threads_set, System.heap_set]

theorem Step.print_cases (hstep : Step kernel system events next) {i : ℕ}
    (hchanged : next.threads i ≠ system.threads i) {call : ReadCall} {ppos : ℤ}
    {buf : List Char} {num : ℕ} {node : Cursor}
    (hthread : system.threads i = some (.print call ppos buf num node)) :
    next.heap = system.heap ∧
      ((node = .finished ∧ next.threads i = some .finished) ∨
        ∃ visited buf' num' node', advance system.heap.nodes node = some (visited, node') ∧
          next.threads i = some (.print call ppos buf' num' node')) := by
  cases hstep <;> grind [System.threads_set, System.heap_set]

theorem Thread.Prints.of_step (hkernel : kernel.KeepsOrder) (hshape : kernel.ShapeOnly)
    (hcoherent : system.Coherent kernel trace forest) (hstep : Step kernel system events next)
    {i : ℕ} {thread : Thread} (hthread : system.threads i = some thread) {left : ℕ}
    (hprints : thread.Prints system.heap left) : thread.Prints next.heap left := by
  have hgood := hcoherent.threads i thread hthread
  cases hprints with
  | finished => exact .finished
  | @output call ppos root n moves hroot hends =>
      obtain ⟨_, site, hshows⟩ := hgood
      obtain ⟨hroots, hnodes⟩ :=
        hstep.keeps_published hkernel hshape hcoherent hshows.stands hshows.published
      have hstands := hcoherent.holds.stands root site hshows.stands
      obtain rfl : site.tree.top = n := by simpa [hstands.root] using hroot
      exact .output (hroots.trans hroot)
        (hends.transfer (hstands.linked.restrict.traverses hstands.nodup) hnodes)
  | print hends =>
      obtain ⟨_, root, site, rest, hshows, htraverses, _⟩ := hgood
      obtain ⟨_, hnodes⟩ :=
        hstep.keeps_published hkernel hshape hcoherent hshows.stands hshows.published
      exact .print (hends.transfer htraverses hnodes)

theorem Thread.Prints.own_step (hstep : Step kernel system events next) {i : ℕ}
    (hchanged : next.threads i ≠ system.threads i) {thread : Thread}
    (hthread : system.threads i = some thread) {left : ℕ}
    (hprints : thread.Prints system.heap left) :
    ∃ thread' left', next.threads i = some thread' ∧ thread'.Prints next.heap left' ∧
      left = left' + 1 := by
  cases hprints with
  | finished => exact absurd ((hstep.finished_stays hthread).trans hthread.symm) hchanged
  | @output call ppos root n moves hroot hends =>
      obtain ⟨n', hroot', hheap, hthread'⟩ := hstep.output_cases hchanged hthread
      obtain rfl : n = n' := Option.some.inj (hroot.symm.trans hroot')
      exact ⟨_, moves + 1, hthread', .print (hheap ▸ hends), rfl⟩
  | @print call ppos buf num node moves hends =>
      obtain ⟨hheap, ⟨rfl, hthread'⟩ | ⟨_, _, _, _, hmove, hthread'⟩⟩ :=
        hstep.print_cases hchanged hthread
      · cases hends with
        | finished => exact ⟨_, 0, hthread', .finished, rfl⟩
        | move hmove _ => simp [advance] at hmove
      · obtain ⟨moves', hends', rfl⟩ := hends.next hmove
        exact ⟨_, moves' + 1, hthread', .print (hheap ▸ hends'), rfl⟩

/-- A reader can go on as long as the regions it shows fit into the buffer. -/
theorem Thread.Prints.can_step (hcoherent : system.Coherent kernel trace forest) {i : ℕ}
    {thread : Thread} (hthread : system.threads i = some thread) {left : ℕ}
    (hprints : thread.Prints system.heap (left + 1)) {call : ReadCall} {ppos : ℤ}
    {list : List PolicyNode} (hlatest : ReadsLatest i trace (.outputReads i call ppos) list)
    (hfits : RendersIn (listToTree kernel .nil list)) :
    ∃ events thread', Step kernel system events (system.set i thread') ∧
      thread'.Prints system.heap left := by
  have hgood := hcoherent.threads i thread hthread
  cases hprints with
  | output hroot hends => exact ⟨_, _, .outputRoot hthread hroot, .print hends⟩
  | print hends =>
      obtain ⟨_, root, site, rest, hshows, htraverses, hrest⟩ := hgood
      obtain rfl := hshows.latest.unique rfl hlatest rfl
      rw [Site.regions, outputLoop_start, if_pos hfits] at hrest
      cases htraverses with
      | finished =>
          cases hends with
          | finished => exact ⟨_, _, .printEnd hthread, .finished⟩
          | move hmove _ => simp [advance] at hmove
      | move hplanned _ =>
          have hmove := advance_of_restrict hplanned
          obtain ⟨moves, hends', rfl⟩ := hends.next hmove
          exact ⟨_, _, .printMove hthread hmove, .print hends'⟩
      | visit hplanned _ =>
          have hmove := advance_of_restrict hplanned
          obtain ⟨moves, hends', rfl⟩ := hends.next hmove
          rw [outputLoop] at hrest
          obtain ⟨buf', hregion, _⟩ := Outcome.exists_of_bind hrest
          exact ⟨_, _, .printRegion hthread hmove hregion, .print hends'⟩

end Steps

/-- **Readers never wait either.**  A reader that has read `region_map` takes four steps
for every region that was published then, and two more; if the text fits into the
buffer it can take each of them at once, whatever is published meanwhile. -/
theorem output_waitFree {kernel : KernelRbtree} (hkernel : kernel.KeepsOrder)
    (hshape : kernel.ShapeOnly) {trace : List PolicyEvent} {system : System}
    (hrun : Run (Step kernel) System.initial trace system) {i : ℕ} {call : ReadCall} {ppos : ℤ}
    {root : Ptr} (hthread : system.threads i = some (.output call ppos root)) :
    ∃ list, ReadsLatest i trace (.outputReads i call ppos) list ∧
      ∀ count last, Takes kernel i system count last →
        count ≤ 4 * (firstNodes list).length + 2 ∧
        (last.threads i = some .finished ↔ count = 4 * (firstNodes list).length + 2) ∧
        (RendersIn (listToTree kernel .nil list) → count < 4 * (firstNodes list).length + 2 →
          ∃ events next, Step kernel last events next ∧ next.threads i ≠ last.threads i) := by
  obtain ⟨⟨forest, hcoherent⟩, _⟩ := good_of_run hkernel hshape hrun
  obtain ⟨_, site, hshows⟩ := hcoherent.threads i _ hthread
  have hstands := hcoherent.holds.stands root site hshows.stands
  have hlength : site.tree.inorder.length = (firstNodes site.inserted).length := by
    rw [← length_inorder_listToTree hkernel, ← hstands.built, RbTree.inorder_map,
      List.length_map]
  have hprints : Thread.Prints system.heap (.output call ppos root)
      (4 * site.tree.inorder.length + 2) :=
    .output hstands.root (hstands.linked.walkEnds hstands.nodup)
  rw [hlength] at hprints
  refine ⟨site.inserted, hshows.latest, fun count last htakes => ?_⟩
  obtain ⟨trace', left, hrun', ⟨thread, hlast, hleft, hlatest⟩, hsum⟩ :=
    htakes.counts hkernel hshape
      (fun trace system left => ∃ thread, system.threads i = some thread ∧
        thread.Prints system.heap left ∧
        ReadsLatest i trace (.outputReads i call ppos) site.inserted) hrun
      (fun hstep hchanged ⟨_, hthread, hprints, hlatest⟩ =>
        let ⟨thread', left', hthread', hprints', hless⟩ :=
          hprints.own_step hstep hchanged hthread
        ⟨left', ⟨thread', hthread', hprints', hlatest.append (hstep.reads_first hthread)⟩, hless⟩)
      (fun hcoherent hstep hsame ⟨thread, hthread, hprints, hlatest⟩ =>
        ⟨thread, hsame.trans hthread,
          hprints.of_step hkernel hshape hcoherent hstep hthread,
          hlatest.append (hstep.reads_first hthread)⟩)
      ⟨_, hthread, hprints, hshows.latest⟩
  refine ⟨by omega, ?_, fun hfits hless => ?_⟩
  · rw [hlast, Option.some.injEq, hleft.finished_iff]
    omega
  · obtain ⟨left, rfl⟩ : ∃ less, left = less + 1 := ⟨left - 1, by omega⟩
    obtain ⟨⟨forest', hcoherent'⟩, _⟩ := good_of_run hkernel hshape hrun'
    obtain ⟨events, thread', hstep, hprints'⟩ :=
      hleft.can_step hcoherent' hlast hlatest hfits
    refine ⟨events, _, hstep, ?_⟩
    rw [System.threads_set, if_pos rfl, hlast]
    rintro heq
    obtain rfl := Option.some.inj heq
    exact absurd (hleft.unique hprints') (Nat.succ_ne_self left)

/-- A reader has read the policy of one writer; a second writer has begun. -/
theorem output_waitFree_twoWriters :
    ∃ trace system, Run (Step bottomUpRbtree) System.initial trace system ∧
      system.threads 2 = some (.output ⟨1000, false⟩ 0 10) ∧ system.threads 1 ≠ none ∧
      ∃ list, ReadsLatest 2 trace (.outputReads 2 ⟨1000, false⟩ 0) list ∧
        ∀ count last, Takes bottomUpRbtree 2 system count last →
          count ≤ 4 * (firstNodes list).length + 2 ∧
          (last.threads 2 = some .finished ↔ count = 4 * (firstNodes list).length + 2) ∧
          (RendersIn (listToTree bottomUpRbtree .nil list) →
            count < 4 * (firstNodes list).length + 2 →
              ∃ events next, Step bottomUpRbtree last events next ∧
                next.threads 2 ≠ last.threads 2) := by
  have hallocate := Run.nil.snoc
    (@Step.allocate bottomUpRbtree System.initial 0 10 [⟨0x1000, 0x10, 1⟩] rfl ⟨rfl, rfl⟩)
  have hinsert := hallocate.snoc
    (@Step.insert _ _ 0 [⟨0x1000, 0x10, 1⟩] [] 10 11 ⟨0x1000, 0x10, 1⟩ 1 _ rfl
      ⟨rfl, rfl⟩ rfl)
  have hpublish := hinsert.snoc (Step.publish (i := 0) rfl)
  have hreads := hpublish.snoc
    (Step.outputReads (i := 2) ⟨1000, false⟩ 0 rfl (by decide) rfl)
  have hallocate' := hreads.snoc
    (@Step.allocate _ _ 1 20 [⟨0x1000, 0x10, 0⟩] rfl ⟨rfl, rfl⟩)
  exact ⟨_, _, hallocate', rfl, by simp [System.set], output_waitFree bottomUpRbtree_keepsOrder
    bottomUpRbtree_shapeOnly hallocate' rfl⟩

end Carat

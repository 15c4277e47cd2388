import Carat.GuardLog
import Carat.PolicyConcurrency

/-!
# Guards never wait

Between any two steps of a guard other threads may publish as many policies as
they like.  Still the guard can always take its next step, and how many it takes
is settled when it reads `region_map`: one for the root and one for every link it
follows in the tree that was published then.
-/

namespace Carat

open SteeredTree LabelledRun

/-- A run in which thread `i` takes this many steps. -/
inductive Takes (kernel : KernelRbtree) (i : ℕ) (start : System) : ℕ → System → Prop where
  | nil : Takes kernel i start 0 start
  | own {count : ℕ} {middle last : System} {events : List PolicyEvent} :
      Takes kernel i start count middle → Step kernel middle events last →
        last.threads i ≠ middle.threads i → Takes kernel i start (count + 1) last
  | other {count : ℕ} {middle last : System} {events : List PolicyEvent} :
      Takes kernel i start count middle → Step kernel middle events last →
        last.threads i = middle.threads i → Takes kernel i start count last

/-- A step that changes nothing but where thread `i` is. -/
def OwnStep (kernel : KernelRbtree) (i : ℕ) (system : System) (events : List PolicyEvent)
    (next : System) : Prop :=
  Step kernel system events next ∧ ∃ thread, next = system.set i thread

/-- One step for the root and one for every region that the search looks at, or for the
NULL link that it ends at. -/
def guardSteps (kernel : KernelRbtree) (list : List PolicyNode) (ptr : BitVec 64) : ℕ :=
  ((listToTree kernel .nil list).descend (lookupTurn ptr)).place.length + 2

/-- How many steps of its own a guard has still to take. -/
inductive Thread.Needs (heap : Heap) : Thread → ℕ → Prop where
  | guard {ptr : BitVec 64} {flags : BitVec 32} {root : Ptr} {n : Option Ptr} {reads : ℕ} :
      heap.roots root = some n → SearchEnds heap.nodes (lookupTurn ptr) n reads →
        Needs heap (.guard ptr flags root) (reads + 1)
  | search {ptr : BitVec 64} {flags : BitVec 32} {n : Option Ptr} {reads : ℕ} :
      SearchEnds heap.nodes (lookupTurn ptr) n reads → Needs heap (.search ptr flags n) reads
  | finished : Needs heap .finished 0

theorem Thread.Needs.finished_iff {heap : Heap} {thread : Thread} {reads : ℕ}
    (hneeds : thread.Needs heap reads) : thread = .finished ↔ reads = 0 := by
  cases hneeds with
  | guard => simp
  | search hends => cases hends <;> simp
  | finished => simp

theorem System.threads_set (system : System) (i : ℕ) (thread : Thread) (j : ℕ) :
    (system.set i thread).threads j = if j = i then some thread else system.threads j := by
  simp [System.set, Function.update_apply]

theorem System.heap_set (system : System) (i : ℕ) (thread : Thread) :
    (system.set i thread).heap = system.heap := rfl

theorem System.set_set (system : System) (i : ℕ) (thread thread' : Thread) :
    (system.set i thread).set i thread' = system.set i thread' := by
  simp [System.set]

theorem System.set_self {system : System} {i : ℕ} {thread : Thread}
    (hthread : system.threads i = some thread) : system.set i thread = system := by
  simp [System.set, ← hthread]

theorem lastPublish_append {shown : List PolicyEvent} (hshown : ∀ list, .publish list ∉ shown)
    (trace : List PolicyEvent) : lastPublish (trace ++ shown) = lastPublish trace := by
  induction shown using List.reverseRecOn with
  | nil => rw [List.append_nil]
  | append_singleton shown last ih =>
      simp only [List.mem_append, List.mem_singleton, not_or, forall_and] at hshown
      rw [← List.append_assoc, ← ih hshown.1]
      simp only [lastPublish, List.foldl_append, List.foldl_cons, List.foldl_nil]
      cases last with
      | publish list => exact absurd rfl (hshown.2 list)
      | _ => rfl

section Steps

variable {kernel : KernelRbtree} {trace events : List PolicyEvent} {forest : Forest}
  {system next : System}

theorem Step.guard_cases (hstep : Step kernel system events next) {i : ℕ}
    (hchanged : next.threads i ≠ system.threads i) {ptr : BitVec 64} {flags : BitVec 32}
    {root : Ptr} (hthread : system.threads i = some (.guard ptr flags root)) :
    ∃ n, system.heap.roots root = some n ∧ next.heap = system.heap ∧
      next.threads i = some (.search ptr flags n) := by
  cases hstep <;> grind [System.threads_set, System.heap_set]

theorem Step.search_cases (hstep : Step kernel system events next) {i : ℕ}
    (hchanged : next.threads i ≠ system.threads i) {ptr : BitVec 64} {flags : BitVec 32}
    {n : Option Ptr} (hthread : system.threads i = some (.search ptr flags n)) :
    next.heap = system.heap ∧
      ((n = none ∧ next.threads i = some .finished) ∨
        ∃ p cell, n = some p ∧ system.heap.nodes p = some cell ∧
          ((lookupTurn ptr cell.data = .lt ∧
              next.threads i = some (.search ptr flags cell.left)) ∨
            (lookupTurn ptr cell.data = .gt ∧
              next.threads i = some (.search ptr flags cell.right)) ∨
            (lookupTurn ptr cell.data = .eq ∧ next.threads i = some .finished))) := by
  cases hstep <;> grind [System.threads_set, System.heap_set]

theorem Step.finished_stays (hstep : Step kernel system events next) {i : ℕ}
    (hthread : system.threads i = some .finished) : next.threads i = some .finished := by
  cases hstep <;> grind [System.threads_set, System.heap_set]

/-- Inside `texas_guard`, or through with it. -/
def Thread.Guards : Thread → Prop
  | .guard _ _ _ => True
  | .search _ _ _ => True
  | .finished => True
  | _ => False

theorem Step.guards (hstep : Step kernel system events next) {i : ℕ} {thread : Thread}
    (hthread : system.threads i = some thread) (hguards : thread.Guards) :
    (∀ event ∈ events, event.reader ≠ some i) ∧
      ∃ thread', next.threads i = some thread' ∧ thread'.Guards ∧
        (thread' = .finished → thread = .finished ∨ ∃ outcome, .guardEnds i outcome ∈ events) := by
  cases hstep <;> grind [System.threads_set, Thread.Guards, PolicyEvent.reader]

theorem Step.of_guardReads {i : ℕ} {ptr : BitVec 64} {flags : BitVec 32}
    (hstep : Step kernel system [.guardReads i ptr flags] next) :
    ∃ root, system.threads i = none ∧ system.regionMap = some root ∧
      next = system.set i (.guard ptr flags root) := by
  cases hstep with
  | guardReads _ _ hfree hroot => exact ⟨_, hfree, hroot, rfl⟩

/-- Nobody touches what has been published. -/
theorem Step.keeps_published (hkernel : kernel.KeepsOrder) (hshape : kernel.ShapeOnly)
    (hcoherent : system.Coherent kernel trace forest) (hstep : Step kernel system events next)
    {root : Ptr} {site : Site} (hsite : forest root = some site) (howner : site.owner = none) :
    next.heap.roots root = system.heap.roots root ∧
      restrict next.heap.nodes site.tree.pointers =
        restrict system.heap.nodes site.tree.pointers := by
  have hroot := (hcoherent.holds.stands root site hsite).root
  cases hstep with
  | @allocate _ root' _ _ hfresh =>
      have hne : root ≠ root' := by
        rintro rfl
        rw [hfresh.1] at hroot
        cases hroot
      exact ⟨Function.update_of_ne hne .., rfl⟩
  | @insert i _ _ root' _ _ _ _ hthread hfresh hinsert =>
      obtain ⟨mine, hmine, hmyself, _⟩ := hcoherent.threads i _ hthread
      obtain ⟨_, _, _, hholds, hundisturbed⟩ :=
        hcoherent.holds.afterInsert hkernel hshape hmine hmyself hfresh hinsert
      obtain ⟨hsite', hnodes⟩ := hundisturbed root site hsite (by simp [howner])
      exact ⟨(hholds.stands root site hsite').root.trans hroot.symm, hnodes⟩
  | _ => exact ⟨rfl, rfl⟩

/-- What a guard still needs is not changed by the steps of others. -/
theorem Thread.Needs.of_step (hkernel : kernel.KeepsOrder) (hshape : kernel.ShapeOnly)
    (hcoherent : system.Coherent kernel trace forest) (hstep : Step kernel system events next)
    {i : ℕ} {thread : Thread} (hthread : system.threads i = some thread) {reads : ℕ}
    (hneeds : thread.Needs system.heap reads) : thread.Needs next.heap reads := by
  have hgood := hcoherent.threads i thread hthread
  cases hneeds with
  | finished => exact .finished
  | @guard ptr flags root n reads hroot hends =>
      obtain ⟨site, hshows⟩ := hgood
      obtain ⟨hroots, hnodes⟩ :=
        hstep.keeps_published hkernel hshape hcoherent hshows.stands hshows.published
      have hstands := hcoherent.holds.stands root site hshows.stands
      obtain rfl : site.tree.top = n := by simpa [hstands.root] using hroot
      exact .guard (hroots.trans hroot)
        (hends.transfer (hstands.linked.restrict.seeks (lookupTurn ptr)) hnodes)
  | search hends =>
      obtain ⟨root, site, hshows, hseeks⟩ := hgood
      obtain ⟨_, hnodes⟩ :=
        hstep.keeps_published hkernel hshape hcoherent hshows.stands hshows.published
      exact .search (hends.transfer hseeks hnodes)

theorem Thread.Needs.own_step (hstep : Step kernel system events next) {i : ℕ}
    (hchanged : next.threads i ≠ system.threads i) {thread : Thread}
    (hthread : system.threads i = some thread) {reads : ℕ}
    (hneeds : thread.Needs system.heap reads) :
    ∃ thread' reads', next.threads i = some thread' ∧ thread'.Needs next.heap reads' ∧
      reads = reads' + 1 := by
  cases hneeds with
  | finished => exact absurd ((hstep.finished_stays hthread).trans hthread.symm) hchanged
  | @guard ptr flags root n reads hroot hends =>
      obtain ⟨n', hroot', hheap, hthread'⟩ := hstep.guard_cases hchanged hthread
      obtain rfl : n = n' := Option.some.inj (hroot.symm.trans hroot')
      exact ⟨_, reads, hthread', .search (hheap ▸ hends), rfl⟩
  | @search ptr flags n reads hends =>
      obtain ⟨hheap, hnext⟩ := hstep.search_cases hchanged hthread
      rw [hheap]
      cases hends with
      | vacant =>
          rcases hnext with ⟨_, hthread'⟩ | ⟨p, cell, hp, _⟩
          · exact ⟨_, 0, hthread', .finished, rfl⟩
          · cases hp
      | stop hcell hsteer =>
          rcases hnext with ⟨hp, _⟩ | ⟨p, cell, hp, hcell', hturn⟩
          · cases hp
          obtain rfl := Option.some.inj hp
          obtain rfl := Option.some.inj (hcell.symm.trans hcell')
          rcases hturn with ⟨hlt, _⟩ | ⟨hgt, _⟩ | ⟨_, hthread'⟩
          · simp [hsteer] at hlt
          · simp [hsteer] at hgt
          · exact ⟨_, 0, hthread', .finished, rfl⟩
      | left hcell hsteer hrest =>
          rcases hnext with ⟨hp, _⟩ | ⟨p, cell, hp, hcell', hturn⟩
          · cases hp
          obtain rfl := Option.some.inj hp
          obtain rfl := Option.some.inj (hcell.symm.trans hcell')
          rcases hturn with ⟨_, hthread'⟩ | ⟨hgt, _⟩ | ⟨heq, _⟩
          · exact ⟨_, _, hthread', .search hrest, rfl⟩
          · simp [hsteer] at hgt
          · simp [hsteer] at heq
      | right hcell hsteer hrest =>
          rcases hnext with ⟨hp, _⟩ | ⟨p, cell, hp, hcell', hturn⟩
          · cases hp
          obtain rfl := Option.some.inj hp
          obtain rfl := Option.some.inj (hcell.symm.trans hcell')
          rcases hturn with ⟨hlt, _⟩ | ⟨_, hthread'⟩ | ⟨heq, _⟩
          · simp [hsteer] at hlt
          · exact ⟨_, _, hthread', .search hrest, rfl⟩
          · simp [hsteer] at heq

/-- A guard that has not ended can take a step at once; the last one shows its verdict. -/
theorem Thread.Needs.can_step (kernel : KernelRbtree) {i : ℕ} {thread : Thread}
    (hthread : system.threads i = some thread) {reads : ℕ}
    (hneeds : thread.Needs system.heap (reads + 1)) :
    ∃ events thread', Step kernel system events (system.set i thread') ∧
      thread'.Needs system.heap reads ∧
      ((reads = 0 ∧ ∃ outcome, events = [.guardEnds i outcome]) ∨ reads ≠ 0 ∧ events = []) := by
  cases hneeds with
  | guard hroot hends =>
      exact ⟨_, _, .guardRoot hthread hroot, .search hends, .inr ⟨hends.pos.ne', rfl⟩⟩
  | search hends =>
      cases hends with
      | vacant => exact ⟨_, _, .searchNull hthread, .finished, .inl ⟨rfl, _, rfl⟩⟩
      | stop hcell hsteer =>
          exact ⟨_, _, .searchFound hthread hcell hsteer, .finished, .inl ⟨rfl, _, rfl⟩⟩
      | left hcell hsteer hrest =>
          exact ⟨_, _, .searchLeft hthread hcell hsteer, .search hrest,
            .inr ⟨hrest.pos.ne', rfl⟩⟩
      | right hcell hsteer hrest =>
          exact ⟨_, _, .searchRight hthread hcell hsteer, .search hrest,
            .inr ⟨hrest.pos.ne', rfl⟩⟩

theorem Thread.Needs.finishes (kernel : KernelRbtree) {i : ℕ} {thread : Thread}
    (hthread : system.threads i = some thread) {reads : ℕ}
    (hneeds : thread.Needs system.heap (reads + 1)) :
    ∃ outcome, Run (OwnStep kernel i) system [.guardEnds i outcome]
      (system.set i .finished) := by
  induction reads generalizing system thread with
  | zero =>
      obtain ⟨events, thread', hstep, hneeds', ⟨_, outcome, rfl⟩ | ⟨hne, _⟩⟩ :=
        hneeds.can_step kernel hthread
      · obtain rfl := hneeds'.finished_iff.mpr rfl
        exact ⟨outcome, .single ⟨hstep, _, rfl⟩⟩
      · exact absurd rfl hne
  | succ reads ih =>
      obtain ⟨events, thread', hstep, hneeds', ⟨hzero, _⟩ | ⟨_, rfl⟩⟩ :=
        hneeds.can_step kernel hthread
      · exact absurd hzero reads.succ_ne_zero
      · have hmoved : (system.set i thread').threads i = some thread' := by
          rw [System.threads_set, if_pos rfl]
        obtain ⟨outcome, hrun⟩ := ih hmoved hneeds'
        rw [System.set_set] at hrun
        have hfirst : Run (OwnStep kernel i) system [] (system.set i thread') :=
          .single ⟨hstep, _, rfl⟩
        exact ⟨outcome, hfirst.trans hrun⟩

end Steps

theorem Step.sets_thread {kernel : KernelRbtree} {system next : System}
    {events : List PolicyEvent} (hstep : Step kernel system events next) :
    ∃ i thread, next.threads = (system.set i thread).threads := by
  cases hstep <;> exact ⟨_, _, rfl⟩

theorem exists_free_thread {kernel : KernelRbtree} {trace : List PolicyEvent} {system : System}
    (hrun : Run (Step kernel) System.initial trace system) :
    ∃ bound, ∀ j, bound ≤ j → system.threads j = none := by
  induction hrun with
  | nil => exact ⟨0, fun _ _ => rfl⟩
  | snoc _ hstep ih =>
      obtain ⟨bound, hbound⟩ := ih
      obtain ⟨i, thread, hthreads⟩ := hstep.sets_thread
      refine ⟨max bound (i + 1), fun j hj => ?_⟩
      rw [hthreads, System.threads_set, if_neg (by omega)]
      exact hbound j (by omega)

section Runs

variable {kernel : KernelRbtree} (hkernel : kernel.KeepsOrder) (hshape : kernel.ShapeOnly)

include hkernel hshape

theorem good_of_run {trace : List PolicyEvent} {system : System}
    (hrun : Run (Step kernel) System.initial trace system) : Good kernel trace system :=
  hrun.invariant (Good kernel) ⟨⟨_, coherent_initial kernel⟩, explained_nil _⟩
    fun _ _ _ _ hgood hstep => step_good hkernel hshape hgood hstep

theorem needs_of_guard {trace : List PolicyEvent} {system : System}
    (hrun : Run (Step kernel) System.initial trace system) {i : ℕ} {ptr : BitVec 64}
    {flags : BitVec 32} {root : Ptr} (hthread : system.threads i = some (.guard ptr flags root)) :
    ∃ list, ReadsLatest i trace (.guardReads i ptr flags) list ∧
      (Thread.guard ptr flags root).Needs system.heap (guardSteps kernel list ptr) := by
  obtain ⟨⟨forest, hcoherent⟩, _⟩ := good_of_run hkernel hshape hrun
  obtain ⟨site, hshows⟩ := hcoherent.threads i _ hthread
  have hstands := hcoherent.holds.stands root site hshows.stands
  have hends := hstands.linked.searchEnds (lookupTurn ptr)
  rw [hstands.built] at hends
  exact ⟨site.inserted, hshows.latest, .guard hstands.root hends⟩

/-- A countdown that own steps bring down by one and the steps of others leave alone. -/
theorem Takes.counts (Left : List PolicyEvent → System → ℕ → Prop) {i : ℕ}
    {trace : List PolicyEvent} {start last : System}
    (hrun : Run (Step kernel) System.initial trace start)
    (hown : ∀ {trace events : List PolicyEvent} {system next : System} {left : ℕ},
      Step kernel system events next → next.threads i ≠ system.threads i →
        Left trace system left → ∃ left', Left (trace ++ events) next left' ∧ left = left' + 1)
    (hother : ∀ {trace events : List PolicyEvent} {system next : System} {forest : Forest}
      {left : ℕ}, system.Coherent kernel trace forest → Step kernel system events next →
        next.threads i = system.threads i → Left trace system left →
          Left (trace ++ events) next left)
    {needed count : ℕ} (hneeded : Left trace start needed)
    (htakes : Takes kernel i start count last) :
    ∃ trace' left, Run (Step kernel) System.initial trace' last ∧ Left trace' last left ∧
      needed = left + count := by
  induction htakes with
  | nil => exact ⟨trace, needed, hrun, hneeded, rfl⟩
  | own _ hstep hchanged ih =>
      obtain ⟨trace', left, hrun', hleft, hsum⟩ := ih
      obtain ⟨left', hleft', hless⟩ := hown hstep hchanged hleft
      exact ⟨_, left', hrun'.snoc hstep, hleft', by omega⟩
  | other _ hstep hsame ih =>
      obtain ⟨trace', left, hrun', hleft, hsum⟩ := ih
      obtain ⟨⟨forest, hcoherent⟩, _⟩ := good_of_run hkernel hshape hrun'
      exact ⟨_, left, hrun'.snoc hstep, hother hcoherent hstep hsame hleft, hsum⟩

end Runs

theorem Thread.Needs.unique {heap : Heap} {thread : Thread} {reads reads' : ℕ}
    (hneeds : thread.Needs heap reads) (hneeds' : thread.Needs heap reads') : reads = reads' := by
  cases hneeds with
  | guard hroot hends =>
      cases hneeds' with
      | guard hroot' hends' =>
          obtain rfl := Option.some.inj (hroot.symm.trans hroot')
          rw [hends.unique hends']
  | search hends =>
      cases hneeds' with
      | search hends' => exact hends.unique hends'
  | finished =>
      cases hneeds'
      rfl

end Carat

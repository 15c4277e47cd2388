import Carat.AtomicPolicy

/-!
# What the register can show, the module can

A list is written by a thread that has not been used yet, all by itself.  A call
reads `region_map` when the register settles it, waits, and comes to its end by itself
when the register lets it end.  Together with the refinement the module and the
register have the same traces.
-/

namespace Carat

open SteeredTree LabelledRun

/-! ## Memory never runs out -/

section Memory

variable {kernel : KernelRbtree} {heap heap' : Heap} {forest : Forest} {root p : Ptr}
  {site : Site}

theorem Heap.Holds.exists_insert (hholds : heap.Holds kernel forest)
    (hsite : forest root = some site) (p : Ptr) (newRegion : MemoryRegion) :
    ∃ fuel heap', heap.insertRegion kernel fuel root p newRegion = some heap' := by
  have hstands := hholds.stands root site hsite
  obtain ⟨fuel, hload⟩ := hstands.linked.exists_load
  refine ⟨fuel, Option.ne_none_iff_exists'.mp ?_⟩
  simp [Heap.insertRegion, hstands.root, hload fuel le_rfl]

/-- `insert_region` takes up no memory but the new record. -/
theorem Heap.Holds.fresh_of_insert (hkernel : kernel.KeepsOrder) (hshape : kernel.ShapeOnly)
    (hholds : heap.Holds kernel forest) (hsite : forest root = some site) {node : PolicyNode}
    {fuel : ℕ} (hinsert : heap.insertRegion kernel fuel root p node.toRegion = some heap')
    {q : Ptr} (hfresh : heap.Fresh q) (hne : q ≠ p) : heap'.Fresh q := by
  have hstands := hholds.stands root site hsite
  have hroot : q ≠ root := by
    rintro rfl
    exact absurd (hfresh.1.symm.trans hstands.root) (by simp)
  have hq : q ∉ site.tree.pointers := fun hmem => hstands.linked.ne_none hmem hfresh.2
  have hordered : RegionOrdered (site.tree.map Prod.snd) := by
    rw [hstands.built]
    exact listToTree_ordered hkernel regionOrdered_nil _
  simp only [Heap.insertRegion, hstands.root, Option.bind_some,
    Option.map_eq_some_iff] at hinsert
  obtain ⟨tree, hload, rfl⟩ := hinsert
  obtain rfl := hstands.linked.eq_of_load hload
  cases hdescend : site.tree.descend (insertTurn node.toRegion.addr ∘ Prod.snd) with
  | found place found => exact ⟨hfresh.1, (Function.update_of_ne hne ..).trans hfresh.2⟩
  | vacant link =>
      obtain ⟨_, hperm⟩ := rbInsertColor_records hkernel hshape (p := p) hordered hdescend
      refine ⟨(Function.update_of_ne hroot ..).trans hfresh.1,
        (RbTree.store_of_not_mem fun hmem => ?_).trans hfresh.2⟩
      exact (List.mem_cons.mp (hperm.mem_iff.mp hmem)).elim hne hq

end Memory

section Runs

variable {kernel : KernelRbtree} (hkernel : kernel.KeepsOrder) (hshape : kernel.ShapeOnly)
  {trace : List PolicyEvent} {system : System}

include hkernel hshape

theorem Step.takes_one {next : System} {events : List PolicyEvent}
    (hgood : Good kernel trace system) (hstep : Step kernel system events next) :
    ∃ p : ℕ, ∀ q : ℕ, q ≠ p → system.heap.Fresh q → next.heap.Fresh q := by
  obtain ⟨⟨forest, hcoherent⟩, _⟩ := hgood
  cases hstep with
  | @allocate _ root _ _ _ =>
      exact ⟨root, fun q hne hq => ⟨(Function.update_of_ne hne ..).trans hq.1, hq.2⟩⟩
  | @insert i _ _ root p _ _ _ hthread _ hinsert =>
      obtain ⟨site, hsite, _⟩ := hcoherent.threads i _ hthread
      exact ⟨p, fun q hne hq =>
        hcoherent.holds.fresh_of_insert hkernel hshape hsite hinsert hq hne⟩
  | _ => exact ⟨0, fun q _ hq => hq⟩

theorem exists_fresh (hrun : Run (Step kernel) System.initial trace system) :
    ∃ bound : ℕ, ∀ p : ℕ, bound ≤ p → system.heap.Fresh p := by
  induction hrun with
  | nil => exact ⟨0, fun _ _ => ⟨rfl, rfl⟩⟩
  | snoc hbefore hstep ih =>
      obtain ⟨bound, hbound⟩ := ih
      obtain ⟨p, hp⟩ := hstep.takes_one hkernel hshape (good_of_run hkernel hshape hbefore)
      exact ⟨max bound (p + 1), fun q hq => hp q (by omega) (hbound q (by omega))⟩

/-! ## A thread on its own -/

theorem run_inserts {i : ℕ} {list : List PolicyNode} {root : Ptr} {todo : List PolicyNode}
    (hrun : Run (Step kernel) System.initial trace system)
    (hthread : system.threads i = some (.input list root todo)) :
    ∃ next, Run (Step kernel) system [] next ∧ next.threads i = some (.input list root []) ∧
      ∀ j, j ≠ i → next.threads j = system.threads j := by
  induction todo generalizing trace system with
  | nil => exact ⟨system, .nil, hthread, fun _ _ => rfl⟩
  | cons node todo ih =>
      obtain ⟨⟨forest, hcoherent⟩, _⟩ := good_of_run hkernel hshape hrun
      obtain ⟨site, hsite, _⟩ := hcoherent.threads i _ hthread
      obtain ⟨p, hfresh⟩ := exists_fresh hkernel hshape hrun
      obtain ⟨fuel, heap, hinsert⟩ := hcoherent.holds.exists_insert hsite p node.toRegion
      have hstep := Step.insert hthread (hfresh p le_rfl) hinsert
      obtain ⟨next, hrest, hend, hothers⟩ := ih (hrun.snoc hstep)
        (by rw [System.threads_set, if_pos rfl])
      refine ⟨next, (Run.single hstep).trans hrest, hend, fun j hj => ?_⟩
      rw [hothers j hj, System.threads_set, if_neg hj]

/-- A whole `input_policy`, from `kmalloc` to the store to `region_map`. -/
theorem run_input (hrun : Run (Step kernel) System.initial trace system) {i : ℕ}
    (hfree : system.threads i = none) (list : List PolicyNode) :
    ∃ next, Run (Step kernel) system [.publish list] next ∧
      next.threads i = some .finished ∧ next.regionMap ≠ none ∧
      ∀ j, j ≠ i → next.threads j = system.threads j := by
  obtain ⟨root, hfresh⟩ := exists_fresh hkernel hshape hrun
  have hallocate : Step kernel system [] _ := .allocate list hfree (hfresh root le_rfl)
  obtain ⟨last, hinserts, hend, hothers⟩ := run_inserts hkernel hshape (hrun.snoc hallocate)
    (by rw [System.threads_set, if_pos rfl])
  refine ⟨_, ((Run.single hallocate).trans hinserts).snoc (.publish hend), ?_,
    Option.some_ne_none root, fun j hj => ?_⟩
  · rw [System.threads_set, if_pos rfl]
  · rw [System.threads_set, if_neg hj]
    simp only [hothers j hj, System.threads_set, if_neg hj]

end Runs

theorem run_print (kernel : KernelRbtree) {system : System} {i : ℕ} {call : ReadCall} {ppos : ℤ}
    {buf : List Char} {num : ℕ} {node : Cursor}
    (hthread : system.threads i = some (.print call ppos buf num node)) {rest : List MemoryRegion}
    (htraverses : Traverses system.heap.nodes node rest) {text : List Char}
    (hprints : outputLoop num buf rest = .returns text) :
    ∃ result, Run (Step kernel) system [.outputEnds i result] (system.set i .finished) := by
  generalize hnodes : system.heap.nodes = nodes at htraverses
  induction htraverses generalizing system buf num with
  | finished => exact ⟨_, .single (.printEnd hthread)⟩
  | @move _ cursor' _ hmove _ ih =>
      have hstep : Step kernel system [] _ := .printMove hthread (hnodes ▸ hmove)
      have hmoved : (system.set i (.print call ppos buf num cursor')).threads i =
          some (.print call ppos buf num cursor') := by rw [System.threads_set, if_pos rfl]
      obtain ⟨result, hrun⟩ := ih hmoved hprints hnodes
      rw [System.set_set] at hrun
      exact ⟨result, (Run.single hstep).trans hrun⟩
  | @visit _ cursor' region _ hmove _ ih =>
      rw [outputLoop] at hprints
      obtain ⟨buf', hregion, hprints'⟩ := Outcome.exists_of_bind hprints
      have hstep : Step kernel system [] _ := .printRegion hthread (hnodes ▸ hmove) hregion
      have hmoved : (system.set i (.print call ppos buf' (num + 1) cursor')).threads i =
          some (.print call ppos buf' (num + 1) cursor') := by
        rw [System.threads_set, if_pos rfl]
      obtain ⟨result, hrun⟩ := ih hmoved hprints' hnodes
      rw [System.set_set] at hrun
      exact ⟨result, (Run.single hstep).trans hrun⟩

/-! ## The register leads -/

/-- Where a call waits until it is to end. -/
def Settled.Waits : Settled → Thread → Prop
  | .guard _, .guard _ _ _ => True
  | .output _, .output _ _ _ => True
  | _, _ => False

/-- The module has shown the same trace, and every call that has not ended stands where
it has just read `region_map`.  Calls have numbers below `bound`, writers the others. -/
structure Register.Leads (kernel : KernelRbtree) (bound : ℕ) (trace : List PolicyEvent)
    (register : Register) (system : System) : Prop where
  run : Run (Step kernel) System.initial trace system
  follows : register.Follows kernel trace system
  free : ∀ i, i < bound → register.calls i = none → system.threads i = none
  waits : ∀ i settled, register.calls i = some (some settled) →
    ∃ thread, system.threads i = some thread ∧ settled.Waits thread
  published : register.current ≠ none → system.regionMap ≠ none

section Leading

variable {kernel : KernelRbtree} {bound : ℕ} {trace events : List PolicyEvent}
  {register register' : Register} {system next : System}

theorem Register.Leads.moves (hleads : register.Leads kernel bound trace system)
    (hrun : Run (Step kernel) system events next)
    (hfollows : register'.Follows kernel (trace ++ events) next) {i : ℕ}
    (hcalls : ∀ j, j ≠ i → register'.calls j = register.calls j)
    (hothers : ∀ j, j ≠ i → next.threads j = system.threads j)
    (hbusy : i < bound → register'.calls i ≠ none)
    (hwaits : ∀ settled, register'.calls i = some (some settled) →
      ∃ thread, next.threads i = some thread ∧ settled.Waits thread)
    (hpublished : register'.current ≠ none → next.regionMap ≠ none) :
    register'.Leads kernel bound (trace ++ events) next where
  run := hleads.run.trans hrun
  follows := hfollows
  free := by
    intro j hj hfree
    have hji : j ≠ i := by
      rintro rfl
      exact hbusy hj hfree
    rw [hothers j hji]
    exact hleads.free j hj ((hcalls j hji).symm.trans hfree)
  waits := by
    intro j settled hsettled
    by_cases hji : j = i
    · subst j
      exact hwaits settled hsettled
    · rw [hothers j hji]
      exact hleads.waits j settled ((hcalls j hji).symm.trans hsettled)
  published := hpublished

variable (hkernel : kernel.KeepsOrder) (hshape : kernel.ShapeOnly)

include hkernel hshape

theorem Register.Leads.publishes (hleads : register.Leads kernel bound trace system)
    (list : List PolicyNode) :
    ∃ next, Register.Leads kernel bound (trace ++ [.publish list])
      { register with current := some list } next := by
  obtain ⟨used, hunused⟩ := exists_free_thread hleads.run
  have hfree : system.threads (max used bound) = none := hunused _ (le_max_left ..)
  have hcall := hleads.follows.free _ hfree
  obtain ⟨next, hrun, hended, hmap, hothers⟩ := run_input hkernel hshape hleads.run hfree list
  refine ⟨next, hleads.moves hrun (hleads.follows.publishes hothers hended list)
    (fun _ _ => rfl) hothers (fun hless => absurd hless (by omega)) ?_ fun _ => hmap⟩
  intro settled hsettled
  rw [hcall] at hsettled
  cases hsettled

omit hkernel hshape in
theorem Register.Leads.reads (hleads : register.Leads kernel bound trace system) {i : ℕ}
    {event : PolicyEvent} {thread : Thread} {settled : Settled}
    (hstep : Step kernel system [event] (system.set i thread)) (hevent : event.reader = some i)
    {list : List PolicyNode} (hcurrent : register.current = some list)
    (hsettle : settle kernel list event = some settled) (hwaits : settled.Waits thread) :
    ∃ next, (register.set i settled).Leads kernel bound (trace ++ [event]) next := by
  have hothers : ∀ j, j ≠ i → (system.set i thread).threads j = system.threads j :=
    fun j hj => by rw [System.threads_set, if_neg hj]
  have hthread : (system.set i thread).threads i = some thread := by
    rw [System.threads_set, if_pos rfl]
  have hfollows := hleads.follows.reads (by simp [hthread]) hothers hevent
    (hleads.follows.current.symm.trans hcurrent)
  rw [hsettle] at hfollows
  refine ⟨_, hleads.moves (.single hstep) hfollows
    (fun j hj => by rw [Register.calls_set, if_neg hj]) hothers
    (fun _ => by simp [Register.calls_set]) ?_ hleads.published⟩
  intro settled' hsettled'
  rw [Register.calls_set, if_pos rfl, Option.some.injEq, Option.some.injEq] at hsettled'
  exact ⟨thread, hthread, hsettled' ▸ hwaits⟩

omit hkernel hshape in
theorem Register.Leads.ends (hleads : register.Leads kernel bound trace system) {i : ℕ}
    {event : PolicyEvent} (hrun : Run (Step kernel) system [event] (system.set i .finished))
    (hreader : event.reader = none) (hpublish : ∀ list, event ≠ .publish list) :
    ∃ next, (register.set i none).Leads kernel bound (trace ++ [event]) next := by
  have hothers : ∀ j, j ≠ i → (system.set i .finished).threads j = system.threads j :=
    fun j hj => by rw [System.threads_set, if_neg hj]
  have hended : (system.set i .finished).threads i = some .finished := by
    rw [System.threads_set, if_pos rfl]
  exact ⟨_, hleads.moves hrun (hleads.follows.ends hothers hended hreader hpublish)
    (fun j hj => by rw [Register.calls_set, if_neg hj]) hothers
    (fun _ => by simp [Register.calls_set]) (by simp [Register.calls_set]) hleads.published⟩

theorem Register.Leads.guardEnds (hleads : register.Leads kernel bound trace system) {i : ℕ}
    {outcome : GuardOutcome} (hcall : register.calls i = some (some (.guard (.returns outcome)))) :
    ∃ next, (register.set i none).Leads kernel bound (trace ++ [.guardEnds i outcome]) next := by
  obtain ⟨thread, hthread, hwaits⟩ := hleads.waits i _ hcall
  cases thread with
  | guard ptr flags root =>
      obtain ⟨_, _, hneeds⟩ := needs_of_guard hkernel hshape hleads.run hthread
      obtain ⟨outcome', hown⟩ := hneeds.finishes kernel hthread
      have hrun := hown.mono fun _ _ _ hstep => hstep.1
      have hsettled := hleads.follows.guardEnds hthread trivial
        (good_of_run hkernel hshape (hleads.run.trans hrun))
      obtain rfl : outcome' = outcome := by simpa [hcall] using hsettled.symm
      exact hleads.ends hrun rfl (by simp)
  | _ => cases hwaits

theorem Register.Leads.outputEnds (hleads : register.Leads kernel bound trace system) {i : ℕ}
    {result : ReadResult} (hcall : register.calls i = some (some (.output (.returns result)))) :
    ∃ next, (register.set i none).Leads kernel bound (trace ++ [.outputEnds i result]) next := by
  obtain ⟨thread, hthread, hwaits⟩ := hleads.waits i _ hcall
  cases thread with
  | output call ppos root =>
      obtain ⟨⟨forest, hcoherent⟩, _⟩ := good_of_run hkernel hshape hleads.run
      obtain ⟨hopen, site, hshows⟩ := hcoherent.threads i _ hthread
      have hstands := hcoherent.holds.stands root site hshows.stands
      have htext : ∃ text,
          outputLoop 0 [] (listToTree kernel .nil site.inserted).inorder = .returns text := by
        have hsettled := hleads.follows.settled i _ _ _ hthread trivial rfl hshows.latest
        have hreturns : outputPolicy (publishedPolicy kernel site.inserted) call ppos =
            .returns result := by
          simpa [hcall, settle] using hsettled.symm
        simp only [outputPolicy, hopen, if_false, publishedPolicy] at hreturns
        obtain ⟨text, htext, _⟩ := Outcome.exists_of_bind hreturns
        exact ⟨text, htext⟩
      obtain ⟨text, hprints⟩ := htext
      have hroot : Step kernel system [] _ := .outputRoot hthread hstands.root
      have hprinting : (system.set i (.print call ppos [] 0 (.first site.tree.top))).threads i =
          some (.print call ppos [] 0 (.first site.tree.top)) := by
        rw [System.threads_set, if_pos rfl]
      have htraverses := hstands.linked.traverses hstands.nodup
      rw [hstands.built] at htraverses
      obtain ⟨result', hprint⟩ := run_print kernel hprinting htraverses hprints
      rw [System.set_set] at hprint
      have hrun := (Run.single hroot).trans hprint
      have hsettled := hleads.follows.outputEnds hthread trivial
        (good_of_run hkernel hshape (hleads.run.trans hrun))
      obtain rfl : result' = result := by simpa [hcall] using hsettled.symm
      exact hleads.ends hrun rfl (by simp)
  | _ => cases hwaits

theorem RegisterStep.led (hstep : RegisterStep kernel register events register')
    (hleads : register.Leads kernel bound trace system)
    (hbound : ∀ event ∈ events, ∀ i, event.reader = some i → i < bound) :
    ∃ next, register'.Leads kernel bound (trace ++ events) next := by
  have hroot : ∀ list, register.current = some list → ∃ root, system.regionMap = some root :=
    fun list hcurrent => Option.ne_none_iff_exists'.mp (hleads.published (by simp [hcurrent]))
  cases hstep with
  | publish list => exact hleads.publishes hkernel hshape list
  | @guardReads i list ptr flags hcall hcurrent =>
      obtain ⟨root, hroot⟩ := hroot list hcurrent
      have hfree := hleads.free i (hbound _ (List.mem_singleton_self _) i rfl) hcall
      exact hleads.reads (.guardReads ptr flags hfree hroot) rfl hcurrent rfl trivial
  | guardEnds hcall => exact hleads.guardEnds hkernel hshape hcall
  | @outputReads i list call ppos hcall hopen hcurrent =>
      obtain ⟨root, hroot⟩ := hroot list hcurrent
      have hfree := hleads.free i (hbound _ (List.mem_singleton_self _) i rfl) hcall
      exact hleads.reads (.outputReads call ppos hfree hopen hroot) rfl hcurrent rfl trivial
  | outputEnds hcall => exact hleads.outputEnds hkernel hshape hcall

theorem Register.exists_leads (hrun : Run (RegisterStep kernel) Register.initial trace register)
    (hbound : ∀ event ∈ trace, ∀ i, event.reader = some i → i < bound) :
    ∃ system, register.Leads kernel bound trace system := by
  induction hrun with
  | nil =>
      exact ⟨System.initial, .nil, ⟨rfl, fun _ _ => rfl, by simp [System.initial]⟩,
        fun _ _ _ => rfl, by simp [Register.initial], by simp [Register.initial]⟩
  | snoc _ hstep ih =>
      simp only [List.mem_append, or_imp, forall_and] at hbound
      obtain ⟨system, hleads⟩ := ih hbound.1
      exact hstep.led hkernel hshape hleads hbound.2

end Leading

theorem exists_reader_bound (trace : List PolicyEvent) :
    ∃ bound, ∀ event ∈ trace, ∀ i, event.reader = some i → i < bound := by
  induction trace with
  | nil => exact ⟨0, by simp⟩
  | cons event rest ih =>
      obtain ⟨bound, hbound⟩ := ih
      refine ⟨max bound (event.reader.getD 0 + 1), fun event' hevent i hi => ?_⟩
      rcases List.mem_cons.mp hevent with rfl | hmem
      · simp [hi]
      · exact lt_max_of_lt_left (hbound event' hmem i hi)

/-- **The policy module is a register.**  What users see of writers, guards and readers
at the same time is what they can see of a register whose writes and reads are single
steps, and nothing of it is missing. -/
theorem policy_traces {kernel : KernelRbtree} (hkernel : kernel.KeepsOrder)
    (hshape : kernel.ShapeOnly) (trace : List PolicyEvent) :
    (∃ system, Run (Step kernel) System.initial trace system) ↔
      ∃ register, Run (RegisterStep kernel) Register.initial trace register := by
  constructor
  · rintro ⟨system, hrun⟩
    obtain ⟨register, hregister, _⟩ := run_refines_register hkernel hshape hrun
    exact ⟨register, hregister⟩
  · rintro ⟨register, hrun⟩
    obtain ⟨bound, hbound⟩ := exists_reader_bound trace
    obtain ⟨system, hleads⟩ := Register.exists_leads hkernel hshape hrun hbound
    exact ⟨system, hleads.run⟩

/-- The guard that calls first ends last, and under the older list. -/
theorem policy_traces_overlap :
    ∃ system, Run (Step bottomUpRbtree) System.initial
      [.publish [⟨0x1000, 0x10, 1⟩], .guardReads 0 0x1008 1, .publish [],
        .guardReads 1 0x1008 1, .guardEnds 1 .noPolicy, .guardEnds 0 .allowed] system := by
  refine (policy_traces bottomUpRbtree_keepsOrder bottomUpRbtree_shapeOnly _).mpr ?_
  have hpublish := Run.nil.snoc
    (@RegisterStep.publish bottomUpRbtree Register.initial [⟨0x1000, 0x10, 1⟩])
  have hreads := hpublish.snoc (RegisterStep.guardReads (i := 0) 0x1008 1 rfl rfl)
  have hpublish' := hreads.snoc (.publish [])
  have hreads' := hpublish'.snoc (RegisterStep.guardReads (i := 1) 0x1008 1 rfl rfl)
  have hends := hreads'.snoc (@RegisterStep.guardEnds _ _ 1 .noPolicy rfl)
  exact ⟨_, hends.snoc (@RegisterStep.guardEnds _ _ 0 .allowed rfl)⟩

end Carat

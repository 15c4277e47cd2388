import Carat.GuardedMachine

/-!
# No policy holds the machine up

Whatever has happened and whatever other threads are in the middle of: what a thread of
the module could do next without guards it can do.  The guard that it is in, or
that it has to call, comes to its end on its own.  Only a thread whose guard has found
no policy at all is stuck.
-/

namespace Carat

open SteeredTree LabelledRun Interleaving

variable {Val World : Type}

/-- Calls are shown on their own. -/
theorem eq_guard_of_mem {M : Module} {interp : Interp Val World} {state next : State Val World}
    {events : List (Event Val)} (hstep : Steps M interp state events next) {args : List Val}
    (hmem : .call "texas_guard" args ∈ events) : events = [.call "texas_guard" args] := by
  obtain ⟨frame, callers, I, rest, act, _, _, haction, _⟩ := step_cases hstep
  cases acts_of_action haction <;> simp_all

/-- What a frame calls next does not depend on the memory. -/
theorem eq_of_guard_call {M : Module} {interp : Interp Val World} {frames : List (Frame Val)}
    {world world' : World} {args : List Val} {events : List (Event Val)}
    {next next' : State Val World}
    (hcall : Steps M interp ⟨frames, world⟩ [.call "texas_guard" args] next)
    (hstep : Steps M interp ⟨frames, world'⟩ events next') :
    events = [.call "texas_guard" args] := by
  obtain ⟨frame, callers, I, rest, _, rfl, hrest, haction, _⟩ := step_cases hcall
  obtain ⟨_, haction', _⟩ := step_running hrest hstep
  generalize hevents : [Event.call "texas_guard" args] = calls at haction ⊢
  cases acts_of_action haction with
  | @calls callee operands name vals hcalled hname hvals =>
      exact (acts_of_action haction').events_of_called hcalled hname hvals
  | _ => simp at hevents

/-- Whoever is inside `texas_guard` is about to call it in the module. -/
def Machine.Called (M : Module) (interp : Interp Val World) (machine : Machine Val World) :
    Prop :=
  ∀ i frames j args, machine.modules i = some ⟨frames, .checking j args⟩ →
    ∃ world next, Steps M interp ⟨frames, world⟩ [.call "texas_guard" args] next

theorem Machine.put_modules_of_ne (machine : Machine Val World) {i k : ℕ}
    (thread : ModuleThread Val) (hk : k ≠ i) :
    (machine.put i thread).modules k = machine.modules k :=
  Function.update_of_ne hk ..

/-- The guard of a thread: the one that it is in, or one that has not begun. -/
def Activity.MayUse (policy : System) (j : ℕ) : Activity Val → Prop
  | .running => policy.threads j = none
  | .checking guard _ => j = guard
  | .faulted => False

/-- A step in which nobody moves but thread `i` of the module and thread `j` of the
policy module, its guard. -/
structure AloneStep (kernel : KernelRbtree) (M : Module) (interp : Interp Val World)
    (convention : CallingConvention interp) (i j : ℕ) (machine : Machine Val World)
    (events : List (MachineEvent Val)) (next : Machine Val World) : Prop where
  step : MachineStep kernel M interp convention machine events next
  modules : ∀ k, k ≠ i → next.modules k = machine.modules k
  threads : ∀ k, k ≠ j → next.policy.threads k = machine.policy.threads k
  heap : next.policy.heap = machine.policy.heap
  regionMap : next.policy.regionMap = machine.policy.regionMap

section Progress

variable {kernel : KernelRbtree} {M : Module} {interp : Interp Val World}
  {convention : CallingConvention interp} {world : World} {trace : List (MachineEvent Val)}
  {machine next : Machine Val World}

theorem Machine.Called.put (hcalled : machine.Called M interp) {i : ℕ}
    {thread : ModuleThread Val}
    (hthread : ∀ j args, thread.activity = .checking j args →
      ∃ world next, Steps M interp ⟨thread.frames, world⟩ [.call "texas_guard" args] next)
    (world' : World) (policy : System) :
    (Machine.put ⟨machine.modules, world', policy⟩ i thread).Called M interp := by
  intro k frames j args hk
  by_cases hki : k = i
  · subst k
    obtain rfl : thread = ⟨frames, .checking j args⟩ := by simpa [Machine.put] using hk
    exact hthread j args rfl
  · exact hcalled k frames j args (by simpa [Machine.put, hki] using hk)

theorem MachineRun.called (hrun : MachineRun kernel M interp convention world trace machine) :
    machine.Called M interp := by
  induction hrun with
  | nil => simp [Machine.Called, Machine.initial]
  | snoc _ hstep ih =>
      cases hstep with
      | starts _ _ => exact ih.put (by simp) _ _
      | moves _ _ _ => exact ih.put (by simp) _ _
      | guardCalled _ hcall _ =>
          refine ih.put (fun j args hactivity => ?_) _ _
          obtain ⟨_, rfl⟩ := Activity.checking.inj hactivity
          exact ⟨_, _, hcall⟩
      | guardFaults _ _ _ => exact ih.put (by simp) _ _
      | policy _ => exact ih
      | guardReturns _ _ _ => exact ih.put (by simp) _ _

/-- What a policy thread does on its own it does alone in the machine. -/
theorem run_alone (machine : Machine Val World) (i : ℕ) {j : ℕ} {shown : List PolicyEvent}
    {policy : System} (hrun : Run (OwnStep kernel j) machine.policy shown policy) :
    Run (AloneStep kernel M interp convention i j) machine (shown.map .policy)
      { machine with policy := policy } := by
  induction hrun with
  | nil => exact .nil
  | snoc _ hown ih =>
      obtain ⟨hstep, thread, rfl⟩ := hown
      rw [List.map_append]
      exact ih.snoc ⟨.policy hstep, fun _ _ => rfl,
        fun k hk => (System.threads_set _ _ _ k).trans (if_neg hk), rfl, rfl⟩

variable (hkernel : kernel.KeepsOrder) (hshape : kernel.ShapeOnly)

include hkernel hshape

theorem Thread.Guards.exists_needs {written : List PolicyEvent} {policy : System}
    (hrun : Run (Step kernel) System.initial written policy) {j : ℕ} {thread : Thread}
    (hthread : policy.threads j = some thread) (hguards : thread.Guards) :
    ∃ reads, thread.Needs policy.heap reads := by
  cases thread with
  | guard ptr flags root =>
      obtain ⟨_, _, hneeds⟩ := needs_of_guard hkernel hshape hrun hthread
      exact ⟨_, hneeds⟩
  | search ptr flags n =>
      obtain ⟨⟨forest, hcoherent⟩, _⟩ := good_of_run hkernel hshape hrun
      obtain ⟨_, _, _, hseeks⟩ := hcoherent.threads j _ hthread
      obtain ⟨reads, hends⟩ := hseeks.exists_searchEnds
      exact ⟨reads, .search hends⟩
  | finished => exact ⟨0, .finished⟩
  | _ => cases hguards

/-- A guard comes to its end with nobody else moving. -/
theorem run_guardEnds {written : List PolicyEvent} {policy : System}
    (hrun : Run (Step kernel) System.initial written policy) {j : ℕ}
    (hguard : ∃ thread, policy.threads j = some thread ∧ thread.Guards) :
    ∃ shown, Run (OwnStep kernel j) policy shown (policy.set j .finished) ∧
      ∀ list, .publish list ∉ shown := by
  obtain ⟨thread, hthread, hguards⟩ := hguard
  obtain ⟨reads, hneeds⟩ := hguards.exists_needs hkernel hshape hrun hthread
  cases reads with
  | zero =>
      obtain rfl := hneeds.finished_iff.mpr rfl
      rw [System.set_self hthread]
      exact ⟨[], .nil, by simp⟩
  | succ reads =>
      obtain ⟨outcome, hfinishes⟩ := hneeds.finishes kernel hthread
      exact ⟨_, hfinishes, by simp⟩

theorem run_guardReturns
    (hpolicy : ∃ written, Run (Step kernel) System.initial written machine.policy) {i j : ℕ}
    {frames frames' : List (Frame Val)} {args : List Val} {world' : World}
    (hthread : machine.modules i = some ⟨frames, .checking j args⟩)
    (hguard : ∃ thread, machine.policy.threads j = some thread ∧ thread.Guards)
    (hcall : Steps M interp ⟨frames, machine.world⟩ [.call "texas_guard" args]
      ⟨frames', world'⟩) :
    ∃ shown : List PolicyEvent,
      Run (AloneStep kernel M interp convention i j) machine
        (shown.map .policy ++ [.module i (.call "texas_guard" args)])
        (Machine.put ⟨machine.modules, world', machine.policy.set j .finished⟩ i
          ⟨frames', .running⟩) ∧
      ∀ list, .publish list ∉ shown := by
  obtain ⟨written, hwritten⟩ := hpolicy
  obtain ⟨shown, hends, hsilent⟩ := run_guardEnds hkernel hshape hwritten hguard
  refine ⟨shown, (run_alone machine i hends).snoc ⟨.guardReturns hthread ?_ hcall, ?_, ?_, rfl,
    rfl⟩, hsilent⟩
  · rw [System.threads_set, if_pos rfl]
  · exact fun k hk => Machine.put_modules_of_ne _ _ hk
  · exact fun k _ => rfl

theorem run_guard (hpolicy : ∃ written, Run (Step kernel) System.initial written machine.policy)
    (hpublished : machine.policy.regionMap ≠ none) {i : ℕ} {frames frames' : List (Frame Val)}
    {args : List Val} {world' : World} (hthread : machine.modules i = some ⟨frames, .running⟩)
    (hcall : Steps M interp ⟨frames, machine.world⟩ [.call "texas_guard" args]
      ⟨frames', world'⟩) :
    ∃ (j : ℕ) (shown : List PolicyEvent), machine.policy.threads j = none ∧
      Run (AloneStep kernel M interp convention i j) machine
        (shown.map .policy ++ [.module i (.call "texas_guard" args)])
        (Machine.put ⟨machine.modules, world', machine.policy.set j .finished⟩ i
          ⟨frames', .running⟩) ∧
      ∀ list, .publish list ∉ shown := by
  obtain ⟨root, hroot⟩ := Option.ne_none_iff_exists'.mp hpublished
  obtain ⟨written, hwritten⟩ := hpolicy
  obtain ⟨j, hfree⟩ := exists_free_thread hwritten
  let ptr := (convention.registers args).1
  let flags := (convention.registers args).2
  have hreads : Step kernel machine.policy [.guardReads j ptr flags]
      (machine.policy.set j (.guard ptr flags root)) :=
    .guardReads _ _ (hfree j le_rfl) hroot
  let inside : Machine Val World :=
    { machine with policy := machine.policy.set j (.guard ptr flags root) }.put i
      ⟨frames, .checking j args⟩
  have hcalled : AloneStep kernel M interp convention i j machine
      [.policy (.guardReads j ptr flags)] inside :=
    ⟨.guardCalled hthread hcall hreads, fun k hk => Machine.put_modules_of_ne _ _ hk,
      fun k hk => (System.threads_set _ _ _ k).trans (if_neg hk), rfl, rfl⟩
  have hinside : inside.modules i = some ⟨frames, .checking j args⟩ := by
    simp [inside, Machine.put]
  have hguard : inside.policy.threads j = some (.guard ptr flags root) := by
    simp [inside, Machine.put, System.threads_set]
  obtain ⟨shown, hreturns, hsilent⟩ := run_guardReturns hkernel hshape
    ⟨_, hwritten.snoc hreads⟩ hinside ⟨_, hguard, trivial⟩ hcall
  refine ⟨j, .guardReads j ptr flags :: shown, hfree j le_rfl, ?_, by simpa using hsilent⟩
  simpa [inside, Machine.put, System.set_set] using (Run.single hcalled).trans hreturns

/-- **No policy holds the machine up.**  Once a policy has been published, a thread takes
the next step of the module whatever the others are in the middle of, and nobody moves
for it but its own guard: the one that it is in, or one that it begins. -/
theorem machine_goesOn (hrun : MachineRun kernel M interp convention world trace machine)
    (hpublished : machine.policy.regionMap ≠ none) {i : ℕ} {thread : ModuleThread Val}
    (hthread : machine.modules i = some thread) (hfaulted : thread.activity ≠ .faulted)
    {events : List (Event Val)} {frames' : List (Frame Val)} {world' : World}
    (hmoves : Steps M interp ⟨thread.frames, machine.world⟩ events ⟨frames', world'⟩) :
    ∃ (j : ℕ) (shown : List PolicyEvent) (policy : System),
      thread.activity.MayUse machine.policy j ∧
      Run (AloneStep kernel M interp convention i j) machine
        (shown.map .policy ++ events.map (.module i))
        (Machine.put ⟨machine.modules, world', policy⟩ i ⟨frames', .running⟩) ∧
      (policy = machine.policy ∨ policy = machine.policy.set j .finished) ∧
      ∀ list, .publish list ∉ shown := by
  have hpolicy := MachineRun.policy hrun
  obtain ⟨frames, activity⟩ := thread
  cases activity with
  | running =>
      by_cases hguard : ∃ args, .call "texas_guard" args ∈ events
      · obtain ⟨args, hmem⟩ := hguard
        obtain rfl := eq_guard_of_mem hmoves hmem
        obtain ⟨j, shown, hfree, hgoes, hsilent⟩ :=
          run_guard hkernel hshape ⟨_, hpolicy⟩ hpublished hthread hmoves
        exact ⟨j, shown, _, hfree, hgoes, Or.inr rfl, hsilent⟩
      · obtain ⟨j, hfree⟩ := exists_free_thread hpolicy
        have hstep : AloneStep kernel M interp convention i j machine (events.map (.module i))
            (Machine.put ⟨machine.modules, world', machine.policy⟩ i ⟨frames', .running⟩) :=
          ⟨.moves hthread hmoves (not_exists.mp hguard),
            fun k hk => Machine.put_modules_of_ne _ _ hk, fun _ _ => rfl, rfl, rfl⟩
        exact ⟨j, [], machine.policy, hfree j le_rfl, .single hstep, Or.inl rfl, by simp⟩
  | checking j args =>
      obtain ⟨_, _, hcall⟩ := MachineRun.called hrun i frames j args hthread
      obtain rfl := eq_of_guard_call hcall hmoves
      obtain ⟨hsupervised, _⟩ := hrun.checked hkernel hshape
      obtain ⟨shown, hgoes, hsilent⟩ := run_guardReturns hkernel hshape ⟨_, hpolicy⟩ hthread
        (hsupervised i frames j args hthread).guards hmoves
      exact ⟨j, shown, _, rfl, hgoes, Or.inr rfl, hsilent⟩
  | faulted => exact absurd rfl hfaulted

end Progress

/-- The module is inside the guard, and comes out of it. -/
theorem machine_goesOn_wideModule :
    ∃ machine, ∃ shown : List PolicyEvent, ∃ next,
      MachineRun bottomUpRbtree guardedWideModule slotPlatform.interp slotConvention emptyWorld
        [.policy (.publish [⟨0x1000, 8, 1⟩]), .policy (.guardReads 2 0x1000 1)] machine ∧
      Run (AloneStep bottomUpRbtree guardedWideModule slotPlatform.interp slotConvention 0 2)
        machine (shown.map .policy ++ [.module 0 (.call "texas_guard" [0x1000, 1])]) next ∧
      ∀ list, .publish list ∉ shown := by
  obtain ⟨machine, called, loaded, _, _, hrun, hthread, hpublished, hcall, _⟩ :=
    wideMachine_checking
  obtain ⟨_, shown, policy, rfl, hgoes, _, hsilent⟩ := machine_goesOn bottomUpRbtree_keepsOrder
    bottomUpRbtree_shapeOnly hrun hpublished hthread (by simp) hcall
  exact ⟨machine, shown, _, hrun, hgoes, hsilent⟩

end Carat

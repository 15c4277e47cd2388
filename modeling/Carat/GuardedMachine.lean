import Carat.ConcurrentModule
import Carat.WaitFreedom

/-!
# The module and the policy module together

Threads of an instrumented module run over shared memory while policies are
written, read and searched.  A call of `texas_guard` is not one step here: the
thread becomes a guard of the policy module, and everything else goes on until
the guard has ended.

Every access that is not exempt was checked: the guard in front of it gave the
verdict of the policy that was current when it read `region_map`, and between
that moment and the access its thread has done nothing but call the guard.
-/

namespace Carat

open SteeredTree LabelledRun Interleaving

variable {Val World : Type}

/-- How a call passes a pointer and an `int`: in two registers. -/
structure CallingConvention (interp : Interp Val World) where
  address : Val → BitVec 64
  registers : List Val → BitVec 64 × BitVec 32
  passes : ∀ p flags, registers [p, interp.const (.int 32 flags)] =
    (address p, BitVec.ofNat 32 flags)

inductive Activity (Val : Type) where
  | running
  -- Inside `texas_guard`, as this thread of the policy module.
  | checking (guard : ℕ) (args : List Val)
  -- `region_map` was NULL.
  | faulted

structure ModuleThread (Val : Type) where
  frames : List (Frame Val)
  activity : Activity Val

structure Machine (Val World : Type) where
  modules : ℕ → Option (ModuleThread Val)
  world : World
  policy : System

def Machine.initial (world : World) : Machine Val World where
  modules := fun _ => none
  world := world
  policy := System.initial

def Machine.put (machine : Machine Val World) (i : ℕ) (thread : ModuleThread Val) :
    Machine Val World :=
  { machine with modules := Function.update machine.modules i (some thread) }

inductive MachineEvent (Val : Type) where
  | module (thread : ℕ) (event : Event Val)
  | policy (event : PolicyEvent)

def MachineEvent.module? : MachineEvent Val → Option (ℕ × Event Val)
  | .module thread event => some (thread, event)
  | .policy _ => none

def MachineEvent.policy? : MachineEvent Val → Option PolicyEvent
  | .module _ _ => none
  | .policy event => some event

def moduleTrace (trace : List (MachineEvent Val)) : List (ℕ × Event Val) :=
  trace.filterMap MachineEvent.module?

def policyTrace (trace : List (MachineEvent Val)) : List PolicyEvent :=
  trace.filterMap MachineEvent.policy?

/-- One step of the machine, in which `texas_guard` belongs to the policy module. -/
inductive MachineStep (kernel : KernelRbtree) (M : Module) (interp : Interp Val World)
    (convention : CallingConvention interp) :
    Machine Val World → List (MachineEvent Val) → Machine Val World → Prop where
  | starts {machine : Machine Val World} {i : ℕ} {frames : List (Frame Val)} {world : World} :
      machine.modules i = none → (moduleThreads M interp).starts frames machine.world world →
        MachineStep kernel M interp convention machine []
          ({ machine with world := world }.put i ⟨frames, .running⟩)
  | moves {machine : Machine Val World} {i : ℕ} {frames frames' : List (Frame Val)}
      {events : List (Event Val)} {world : World} :
      machine.modules i = some ⟨frames, .running⟩ →
        (moduleThreads M interp).moves frames machine.world events frames' world →
        (∀ args, .call "texas_guard" args ∉ events) →
        MachineStep kernel M interp convention machine (events.map (.module i))
          ({ machine with world := world }.put i ⟨frames', .running⟩)
  | guardCalled {machine : Machine Val World} {i j : ℕ} {frames : List (Frame Val)}
      {args : List Val} {next : State Val World} {policy : System} :
      machine.modules i = some ⟨frames, .running⟩ →
        Steps M interp ⟨frames, machine.world⟩ [.call "texas_guard" args] next →
        Step kernel machine.policy
          [.guardReads j (convention.registers args).1 (convention.registers args).2] policy →
        MachineStep kernel M interp convention machine
          [.policy (.guardReads j (convention.registers args).1 (convention.registers args).2)]
          ({ machine with policy := policy }.put i ⟨frames, .checking j args⟩)
  | guardFaults {machine : Machine Val World} {i : ℕ} {frames : List (Frame Val)}
      {args : List Val} {next : State Val World} :
      machine.modules i = some ⟨frames, .running⟩ →
        Steps M interp ⟨frames, machine.world⟩ [.call "texas_guard" args] next →
        machine.policy.regionMap = none →
        MachineStep kernel M interp convention machine [] (machine.put i ⟨frames, .faulted⟩)
  | policy {machine : Machine Val World} {events : List PolicyEvent} {policy : System} :
      Step kernel machine.policy events policy →
        MachineStep kernel M interp convention machine (events.map .policy)
          { machine with policy := policy }
  | guardReturns {machine : Machine Val World} {i j : ℕ} {frames frames' : List (Frame Val)}
      {args : List Val} {world : World} :
      machine.modules i = some ⟨frames, .checking j args⟩ →
        machine.policy.threads j = some .finished →
        Steps M interp ⟨frames, machine.world⟩ [.call "texas_guard" args] ⟨frames', world⟩ →
        MachineStep kernel M interp convention machine [.module i (.call "texas_guard" args)]
          ({ machine with world := world }.put i ⟨frames', .running⟩)

/-- Any order of steps, from a machine where nothing has been called or written. -/
abbrev MachineRun (kernel : KernelRbtree) (M : Module) (interp : Interp Val World)
    (convention : CallingConvention interp) (world : World)
    (trace : List (MachineEvent Val)) (machine : Machine Val World) : Prop :=
  Run (MachineStep kernel M interp convention) (Machine.initial world) trace machine

/-! ## Its two halves -/

def Machine.pool (machine : Machine Val World) : ModulePool Val World where
  thread i := (machine.modules i).map ModuleThread.frames
  shared := machine.world

section Traces

variable (first second : List (MachineEvent Val)) (i : ℕ) (events : List (Event Val))
  (shown : List PolicyEvent)

@[simp] theorem moduleTrace_append :
    moduleTrace (first ++ second) = moduleTrace first ++ moduleTrace second :=
  List.filterMap_append

@[simp] theorem policyTrace_append :
    policyTrace (first ++ second) = policyTrace first ++ policyTrace second :=
  List.filterMap_append

@[simp] theorem moduleTrace_map_module :
    moduleTrace (events.map (.module i)) = byThread i events := by
  simp [moduleTrace, byThread, List.filterMap_map, MachineEvent.module?, Function.comp_def]

@[simp] theorem moduleTrace_map_policy :
    moduleTrace (shown.map (.policy : PolicyEvent → MachineEvent Val)) = [] := by
  simp [moduleTrace, MachineEvent.module?]

@[simp] theorem policyTrace_map_module : policyTrace (events.map (.module i)) = [] := by
  simp [policyTrace, MachineEvent.policy?]

@[simp] theorem policyTrace_map_policy :
    policyTrace (shown.map (.policy : PolicyEvent → MachineEvent Val)) = shown := by
  simp [policyTrace, List.filterMap_map, MachineEvent.policy?, Function.comp_def]

@[simp] theorem moduleTrace_module (event : Event Val) :
    moduleTrace [.module i event] = byThread i [event] := rfl

@[simp] theorem policyTrace_module (event : Event Val) :
    policyTrace [.module i event] = [] := rfl

end Traces

theorem Machine.pool_put (machine : Machine Val World) (i : ℕ) (thread : ModuleThread Val) :
    (machine.put i thread).pool = machine.pool.put i thread.frames machine.world := by
  simp only [Machine.pool, Machine.put, Pool.put, Pool.mk.injEq, and_true]
  funext j
  by_cases hj : j = i <;> simp [hj]

theorem Machine.pool_thread {machine : Machine Val World} {i : ℕ} {frames : List (Frame Val)}
    {activity : Activity Val} (hthread : machine.modules i = some ⟨frames, activity⟩) :
    machine.pool.thread i = some frames := by
  simp [Machine.pool, hthread]

/-- Entering or leaving the guard is not seen in the pool. -/
theorem Machine.pool_put_same {machine : Machine Val World} {i : ℕ} {frames : List (Frame Val)}
    {activity : Activity Val} (hthread : machine.modules i = some ⟨frames, activity⟩)
    (activity' : Activity Val) : (machine.put i ⟨frames, activity'⟩).pool = machine.pool := by
  rw [Machine.pool_put]
  exact Pool.put_self (Machine.pool_thread hthread)

section Halves

variable {kernel : KernelRbtree} {M : Module} {interp : Interp Val World}
  {convention : CallingConvention interp} {world : World} {trace : List (MachineEvent Val)}
  {machine : Machine Val World}

theorem MachineStep.pool {next : Machine Val World} {events : List (MachineEvent Val)}
    (hstep : MachineStep kernel M interp convention machine events next) :
    Run (Pool.Step (moduleThreads M interp)) machine.pool (moduleTrace events) next.pool := by
  cases hstep with
  | starts hfree hstarts =>
      rw [Machine.pool_put]
      exact .single (.starts (by simp [Machine.pool, hfree]) hstarts)
  | moves hthread hmoves _ =>
      rw [Machine.pool_put, moduleTrace_map_module]
      exact .single (.moves (Machine.pool_thread hthread) hmoves)
  | @guardCalled i j frames args _ policy hthread _ _ =>
      have hsame : ({ machine with policy := policy }.put i ⟨frames, .checking j args⟩).pool =
          machine.pool := Machine.pool_put_same hthread _
      rw [hsame]
      exact .nil
  | guardFaults hthread _ _ =>
      rw [Machine.pool_put_same hthread]
      exact .nil
  | policy _ =>
      rw [moduleTrace_map_policy]
      exact .nil
  | @guardReturns i _ _ _ args _ hthread _ hmoves =>
      rw [Machine.pool_put, moduleTrace_module]
      exact .single (.moves (Machine.pool_thread hthread) hmoves)

theorem MachineStep.policyRun {next : Machine Val World} {events : List (MachineEvent Val)}
    (hstep : MachineStep kernel M interp convention machine events next) :
    Run (Step kernel) machine.policy (policyTrace events) next.policy := by
  cases hstep with
  | starts _ _ => exact .nil
  | moves _ _ _ =>
      rw [policyTrace_map_module]
      exact .nil
  | guardCalled _ _ hreads => exact .single hreads
  | guardFaults _ _ _ => exact .nil
  | policy hpolicy =>
      rw [policyTrace_map_policy]
      exact .single hpolicy
  | guardReturns _ _ _ => exact .nil

theorem MachineRun.pool (hrun : MachineRun kernel M interp convention world trace machine) :
    PoolRun M interp world (moduleTrace trace) machine.pool := by
  induction hrun with
  | nil => exact .nil
  | snoc _ hstep ih =>
      rw [moduleTrace_append]
      exact ih.trans hstep.pool

theorem MachineRun.policy (hrun : MachineRun kernel M interp convention world trace machine) :
    Run (Step kernel) System.initial (policyTrace trace) machine.policy := by
  induction hrun with
  | nil => exact .nil
  | snoc _ hstep ih =>
      rw [policyTrace_append]
      exact ih.trans hstep.policyRun

end Halves

/-- Whatever the policy module does on its own it does in the machine. -/
theorem run_policy {kernel : KernelRbtree} {M : Module} {interp : Interp Val World}
    {convention : CallingConvention interp} (machine : Machine Val World) {policy : System}
    {shown : List PolicyEvent} (hrun : Run (Step kernel) machine.policy shown policy) :
    Run (MachineStep kernel M interp convention) machine (shown.map .policy)
      { machine with policy := policy } := by
  induction hrun with
  | nil => exact .nil
  | snoc _ hstep ih =>
      rw [List.map_append]
      exact ih.snoc (.policy hstep)

/-! ## What a guard call was told -/

/-- A guard call of the module gives the verdict of the policy that was current
when its guard read `region_map`; the thread has shown nothing since. -/
def Checked (kernel : KernelRbtree) {interp : Interp Val World}
    (convention : CallingConvention interp) (earlier : List (MachineEvent Val))
    (event : MachineEvent Val) : Prop :=
  ∀ i args, event = .module i (.call "texas_guard" args) →
    ∃ before checks j outcome list,
      earlier = before ++
        .policy (.guardReads j (convention.registers args).1 (convention.registers args).2) ::
          checks ∧
      (∀ shown, .module i shown ∉ checks) ∧ .policy (.guardEnds j outcome) ∈ checks ∧
      lastPublish (policyTrace before) = some list ∧
      texasGuard (publishedPolicy kernel list) (convention.registers args).1
        (convention.registers args).2 = .returns outcome

/-- What the policy module has done for a thread that is inside `texas_guard`. -/
structure Works {interp : Interp Val World} (convention : CallingConvention interp)
    (trace : List (MachineEvent Val)) (policy : System) (i j : ℕ) (args : List Val) : Prop where
  history : ∃ before checks, trace = before ++
      .policy (.guardReads j (convention.registers args).1 (convention.registers args).2) ::
        checks ∧
    (∀ shown, .module i shown ∉ checks) ∧
    (∀ event ∈ policyTrace checks, event.reader ≠ some j) ∧
    (policy.threads j = some .finished → ∃ outcome, .policy (.guardEnds j outcome) ∈ checks)
  guards : ∃ thread, policy.threads j = some thread ∧ thread.Guards

theorem Works.later {interp : Interp Val World} {convention : CallingConvention interp}
    {trace events : List (MachineEvent Val)} {policy policy' : System} {i j : ℕ}
    {args : List Val} (hworks : Works convention trace policy i j args)
    (hsilent : ∀ shown, .module i shown ∉ events)
    (hpolicy : policy' = policy ∧ policyTrace events = [] ∨
      ∃ kernel, Step kernel policy (policyTrace events) policy') :
    Works convention (trace ++ events) policy' i j args := by
  obtain ⟨⟨before, checks, rfl, hchecks, hreader, hends⟩, thread, hthread, hguards⟩ := hworks
  have hmem : ∀ {event}, event ∈ policyTrace events → .policy event ∈ events := by
    intro event hevent
    obtain ⟨shown, hshown, heq⟩ := List.mem_filterMap.mp hevent
    cases shown with
    | module _ _ => cases heq
    | policy shown =>
        obtain rfl : shown = event := by simpa [MachineEvent.policy?] using heq
        exact hshown
  have hsilent' : ∀ shown, .module i shown ∉ checks ++ events := fun shown hshown =>
    (List.mem_append.mp hshown).elim (hchecks shown) (hsilent shown)
  rcases hpolicy with ⟨rfl, hnone⟩ | ⟨kernel, hstep⟩
  · refine ⟨⟨before, checks ++ events, by simp, hsilent', by simpa [hnone] using hreader, ?_⟩,
      thread, hthread, hguards⟩
    intro hfinished
    obtain ⟨outcome, houtcome⟩ := hends hfinished
    exact ⟨outcome, List.mem_append_left _ houtcome⟩
  · obtain ⟨hreader', thread', hthread', hguards', hfinished⟩ := hstep.guards hthread hguards
    refine ⟨⟨before, checks ++ events, by simp, hsilent', ?_, ?_⟩, thread', hthread', hguards'⟩
    · intro event hevent
      rw [policyTrace_append, List.mem_append] at hevent
      exact hevent.elim (hreader event) (hreader' event)
    · intro hended
      obtain rfl : thread' = .finished := Option.some.inj (hthread'.symm.trans hended)
      rcases hfinished rfl with rfl | ⟨outcome, houtcome⟩
      · obtain ⟨outcome, houtcome⟩ := hends hthread
        exact ⟨outcome, List.mem_append_left _ houtcome⟩
      · exact ⟨outcome, List.mem_append_right _ (hmem houtcome)⟩

/-- Every thread inside `texas_guard` has a guard working for it. -/
def Supervised {interp : Interp Val World} (convention : CallingConvention interp)
    (trace : List (MachineEvent Val)) (machine : Machine Val World) : Prop :=
  ∀ i frames j args, machine.modules i = some ⟨frames, .checking j args⟩ →
    Works convention trace machine.policy i j args

section Supervision

variable {kernel : KernelRbtree} {M : Module} {interp : Interp Val World}
  {convention : CallingConvention interp} {world : World}
  {trace events : List (MachineEvent Val)} {machine next : Machine Val World}

/-- A step that leaves a thread where it is keeps its guard at work. -/
theorem Supervised.others (hsupervised : Supervised convention trace machine) {i : ℕ}
    {thread : ModuleThread Val} {world' : World} {policy' : System}
    (hmine : ∀ j args, thread.activity = .checking j args →
      Works convention (trace ++ events) policy' i j args)
    (hsilent : ∀ j, j ≠ i → ∀ shown, .module j shown ∉ events)
    (hpolicy : policy' = machine.policy ∧ policyTrace events = [] ∨
      ∃ kernel, Step kernel machine.policy (policyTrace events) policy') :
    Supervised convention (trace ++ events)
      (Machine.put ⟨machine.modules, world', policy'⟩ i thread) := by
  intro j frames k args hthread
  by_cases hj : j = i
  · subst j
    obtain rfl : thread = ⟨frames, .checking k args⟩ := by simpa [Machine.put] using hthread
    exact hmine k args rfl
  · have hsame : machine.modules j = some ⟨frames, .checking k args⟩ := by
      simpa [Machine.put, hj] using hthread
    exact (hsupervised j frames k args hsame).later (hsilent j hj) hpolicy

theorem MachineStep.supervised (hsupervised : Supervised convention trace machine)
    (hstep : MachineStep kernel M interp convention machine events next) :
    Supervised convention (trace ++ events) next := by
  cases hstep with
  | starts _ _ =>
      exact hsupervised.others (by simp) (by simp) (Or.inl ⟨rfl, rfl⟩)
  | moves _ _ _ =>
      refine hsupervised.others (by simp) ?_ (Or.inl ⟨rfl, policyTrace_map_module ..⟩)
      intro j hj shown hmem
      obtain ⟨_, _, heq⟩ := List.mem_map.mp hmem
      exact hj (MachineEvent.module.inj heq).1.symm
  | @guardCalled i j frames args _ policy hthread _ hreads =>
      refine hsupervised.others ?_ (by simp) (Or.inr ⟨kernel, hreads⟩)
      rintro j' args' ⟨⟩
      obtain ⟨root, _, _, rfl⟩ := hreads.of_guardReads
      exact ⟨⟨trace, [], rfl, by simp, by simp [policyTrace], by simp [System.threads_set]⟩,
        .guard _ _ root, by rw [System.threads_set, if_pos rfl], trivial⟩
  | guardFaults _ _ _ =>
      exact hsupervised.others (by simp) (by simp) (Or.inl ⟨rfl, rfl⟩)
  | @policy shown policy' hpolicy =>
      intro j frames k args hthread
      refine (hsupervised j frames k args hthread).later (by simp) (Or.inr ⟨kernel, ?_⟩)
      rwa [policyTrace_map_policy]
  | guardReturns _ _ _ =>
      refine hsupervised.others (by simp) ?_ (Or.inl ⟨rfl, rfl⟩)
      intro j hj shown hmem
      exact hj (MachineEvent.module.inj (List.mem_singleton.mp hmem)).1

end Supervision

theorem Works.verdict {kernel : KernelRbtree} {interp : Interp Val World}
    {convention : CallingConvention interp} {trace : List (MachineEvent Val)} {policy : System}
    {i j : ℕ} {args : List Val} (hworks : Works convention trace policy i j args)
    (hfinished : policy.threads j = some .finished)
    (hjustified : Explained (Justified kernel) (policyTrace trace)) :
    Checked kernel convention trace (.module i (.call "texas_guard" args)) := by
  obtain ⟨⟨before, checks, rfl, hchecks, hreader, hends⟩, _⟩ := hworks
  obtain ⟨outcome, houtcome⟩ := hends hfinished
  rintro _ _ ⟨⟩
  have hended : .guardEnds j outcome ∈ policyTrace checks :=
    List.mem_filterMap.mpr ⟨_, houtcome, rfl⟩
  obtain ⟨first, second, hsplit⟩ := List.append_of_mem hended
  have hread : policyTrace (before ++
      .policy (.guardReads j (convention.registers args).1 (convention.registers args).2) ::
        checks) = (policyTrace before ++
      .guardReads j (convention.registers args).1 (convention.registers args).2 :: first) ++
        .guardEnds j outcome :: second := by
    rw [policyTrace_append, List.append_assoc, List.cons_append, ← hsplit]
    rfl
  obtain ⟨ptr, flags, list, ⟨before', after', heq, hafter', hlast⟩, hverdict⟩ :=
    hjustified _ _ _ hread
  -- the guard read `region_map` once
  obtain ⟨rfl, hsame⟩ := last_unique (fun event => event.reader = some j) heq rfl rfl
    (fun event hevent => hreader event (hsplit ▸ List.mem_append_left _ hevent)) hafter'
  obtain ⟨_, rfl, rfl⟩ := PolicyEvent.guardReads.inj hsame
  exact ⟨before, checks, j, outcome, list, rfl, hchecks, houtcome, hlast, hverdict⟩

theorem MachineRun.checked {kernel : KernelRbtree} (hkernel : kernel.KeepsOrder)
    (hshape : kernel.ShapeOnly) {M : Module} {interp : Interp Val World}
    {convention : CallingConvention interp} {world : World} {trace : List (MachineEvent Val)}
    {machine : Machine Val World}
    (hrun : MachineRun kernel M interp convention world trace machine) :
    Supervised convention trace machine ∧ Explained (Checked kernel convention) trace := by
  induction hrun with
  | nil => exact ⟨by simp [Supervised, Machine.initial], explained_nil _⟩
  | @snoc trace events machine next hbefore hstep ih =>
      obtain ⟨hsupervised, hchecked⟩ := ih
      refine ⟨hstep.supervised hsupervised, ?_⟩
      cases hstep with
      | starts _ _ => simpa using hchecked
      | moves _ _ hother =>
          refine hchecked.append fun earlier event hevent => ?_
          obtain ⟨shown, hshown, rfl⟩ := List.mem_map.mp hevent
          rintro _ args ⟨⟩
          exact absurd hshown (hother args)
      | guardCalled _ _ _ => exact hchecked.snoc (by rintro _ _ ⟨⟩)
      | guardFaults _ _ _ => simpa using hchecked
      | policy _ =>
          refine hchecked.append fun earlier event hevent => ?_
          obtain ⟨shown, _, rfl⟩ := List.mem_map.mp hevent
          rintro _ _ ⟨⟩
      | guardReturns hthread hfinished _ =>
          have hpolicy := good_of_run hkernel hshape (MachineRun.policy hbefore)
          exact hchecked.snoc ((hsupervised _ _ _ _ hthread).verdict hfinished hpolicy.2)

/-! ## Every access was checked -/

/-- What one thread of the module has shown. -/
def shownBy (i : ℕ) (trace : List (MachineEvent Val)) : List (Event Val) :=
  ofThread i (moduleTrace trace)

@[simp] theorem shownBy_append (i : ℕ) (first second : List (MachineEvent Val)) :
    shownBy i (first ++ second) = shownBy i first ++ shownBy i second := by
  simp [shownBy]

theorem shownBy_eq_nil_iff {i : ℕ} {trace : List (MachineEvent Val)} :
    shownBy i trace = [] ↔ ∀ event, .module i event ∉ trace := by
  simp only [shownBy, ofThread, moduleTrace, List.filterMap_filterMap, List.filterMap_eq_nil_iff]
  constructor
  · intro hnone event hmem
    have hevent := hnone _ hmem
    simp [MachineEvent.module?] at hevent
  · intro hnone event hmem
    cases event with
    | policy _ => rfl
    | module j event =>
        have hj : j ≠ i := by
          rintro rfl
          exact hnone event hmem
        simp [MachineEvent.module?, hj]

theorem exists_split_of_shownBy {i : ℕ} {trace : List (MachineEvent Val)}
    {earlier : List (Event Val)} {last : Event Val} (hlast : shownBy i trace = earlier ++ [last]) :
    ∃ before after, trace = before ++ .module i last :: after ∧
      ∀ event, .module i event ∉ after := by
  rw [shownBy, ofThread, moduleTrace, List.filterMap_filterMap] at hlast
  obtain ⟨before, event, after, rfl, hevent, _, hafter⟩ := exists_split_of_filterMap hlast
  have hnone : shownBy i after = [] := by
    rw [shownBy, ofThread, moduleTrace, List.filterMap_filterMap, hafter]
  refine ⟨before, after, ?_, shownBy_eq_nil_iff.mp hnone⟩
  cases event with
  | policy _ => simp [MachineEvent.module?] at hevent
  | module j shown =>
      obtain ⟨rfl, rfl⟩ : j = i ∧ shown = last := by simpa [MachineEvent.module?] using hevent
      rfl

/-- A checked access: its thread's guard gave the verdict of the policy published
last when it read `region_map`, and since then the thread has shown nothing but
the guard call. -/
def AccessChecked (kernel : KernelRbtree) (M : Module) {interp : Interp Val World}
    (convention : CallingConvention interp) (earlier : List (MachineEvent Val))
    (event : MachineEvent Val) : Prop :=
  ∀ i shown id p flags, event = .module i shown → shown.access = some (id, p, flags) →
    ¬ExemptAccess M id →
    ∃ before checks after j outcome list,
      earlier = before ++
        .policy (.guardReads j (convention.address p) (BitVec.ofNat 32 flags)) :: checks ++
          .module i (guardEvent interp p flags) :: after ∧
      (∀ shown, .module i shown ∉ checks ∧ .module i shown ∉ after) ∧
      .policy (.guardEnds j outcome) ∈ checks ∧
      lastPublish (policyTrace before) = some list ∧
      texasGuard (publishedPolicy kernel list) (convention.address p) (BitVec.ofNat 32 flags) =
        .returns outcome

section Mediation

variable {kernel : KernelRbtree} (hkernel : kernel.KeepsOrder) (hshape : kernel.ShapeOnly)
  {M M' : Module} {interp : Interp Val World} {convention : CallingConvention interp}
  {world : World} {trace : List (MachineEvent Val)} {machine : Machine Val World}

/-- Each thread's guard calls stand in front of its accesses. -/
theorem shownBy_guarded {before : InstId → List Inst} (hinst : Instrumented M M' before)
    (hexternal : M.definition? "texas_guard" = none) (hinert : GuardInert interp)
    (hrun : MachineRun kernel M' interp convention world trace machine) (i : ℕ) :
    Explained (GuardedBy M interp) (shownBy i trace) := by
  obtain ⟨trace₀, pool, pending, _, hlags⟩ :=
    (hinst.lags hexternal hinert).reflect (MachineRun.pool hrun)
  have hshown : shownBy i trace = (ofThread i trace₀).flatMap (withGuards M interp) ++ pending i :=
    hlags.shown i
  have hexplained := explained_flatMap_withGuards M interp (ofThread i trace₀)
  rw [hshown]
  cases hthread : machine.pool.thread i with
  | none => rwa [hlags.idle i hthread, List.append_nil]
  | some frames' =>
      obtain ⟨frames, _, hahead⟩ := hlags.thread_some hthread
      exact (hahead world).spec.1.guardedBy hexplained

include hkernel hshape

/-- **Complete mediation under concurrency.**  However the threads of an
instrumented module, writers, readers and other guards take their steps, every
access that is not exempt has been checked. -/
theorem machine_mediates {toGuardOrder allGuardsOrder : IterationOrder} {fuel : ℕ}
    (hpass : runOnModule toGuardOrder allGuardsOrder fuel M = some M')
    (hexternal : M.definition? "texas_guard" = none) (hinert : GuardInert interp)
    (hrun : MachineRun kernel M' interp convention world trace machine) :
    Explained (AccessChecked kernel M convention) trace := by
  obtain ⟨before, hinst⟩ := runOnModule_instrumented hpass
  obtain ⟨_, hchecked⟩ := hrun.checked hkernel hshape
  rintro earlier _ later hsplit i shown id p flags rfl haccess hnot
  have hguarded := shownBy_guarded hinst hexternal hinert hrun i
  have hshown : shownBy i trace = shownBy i earlier ++ shown :: shownBy i later := by
    rw [hsplit, shownBy_append]
    simp [shownBy, moduleTrace, ofThread, MachineEvent.module?]
  obtain ⟨start, hstart⟩ := hguarded _ _ _ hshown id p flags haccess hnot
  obtain ⟨first, after, rfl, hafter⟩ := exists_split_of_shownBy hstart
  obtain ⟨before, checks, j, outcome, list, rfl, hchecks, houtcome, hlast, hverdict⟩ :=
    hchecked first _ (after ++ .module i shown :: later)
      (by simpa [guardEvent] using hsplit) i _ rfl
  simp only [convention.passes] at hverdict ⊢
  exact ⟨before, checks, after, j, outcome, list, by simp,
    fun shown => ⟨hchecks shown, hafter shown⟩, houtcome, hlast, hverdict⟩

end Mediation

/-! ## A load that is allowed just before everything is withdrawn -/

def slotConvention : CallingConvention slotPlatform.interp where
  address p := p
  registers args := (args.headD 0, (args.getD 1 0).setWidth 32)
  passes p flags := by
    have hflags : (BitVec.ofNat 64 flags).setWidth 32 = BitVec.ofNat 32 flags :=
      BitVec.setWidth_ofNat_of_le (by decide) flags
    simp [Interp.const, Platform.interp, slotPlatform, hflags]

theorem oneRegion_run :
    ∃ system, Run (Step bottomUpRbtree) System.initial [.publish [⟨0x1000, 8, 1⟩]] system ∧
      system.regionMap = some 10 ∧ system.threads 1 = none ∧ system.threads 2 = none ∧
      system.heap.roots 10 = some (some 11) ∧ system.heap.Fresh 20 ∧
      system.heap.nodes 11 = some ⟨⟨0x1000, 8, 1⟩, none, .black, none, none⟩ := by
  have hallocate := Run.nil.snoc
    (@Step.allocate bottomUpRbtree System.initial 0 10 [⟨0x1000, 8, 1⟩] rfl ⟨rfl, rfl⟩)
  have hinsert := hallocate.snoc
    (@Step.insert _ _ 0 [⟨0x1000, 8, 1⟩] [] 10 11 ⟨0x1000, 8, 1⟩ 1 _ rfl ⟨rfl, rfl⟩ rfl)
  have hpublish := hinsert.snoc (Step.publish (i := 0) rfl)
  exact ⟨_, hpublish, rfl, rfl, rfl, rfl, ⟨rfl, rfl⟩, rfl⟩

/-- A second writer publishes an empty list while a guard is under way. -/
theorem withdrawn_run :
    ∃ first middle last,
      Run (Step bottomUpRbtree) System.initial [.publish [⟨0x1000, 8, 1⟩]] first ∧
      Step bottomUpRbtree first [.guardReads 2 0x1000 1] middle ∧ middle.regionMap ≠ none ∧
      Run (Step bottomUpRbtree) middle [.publish [], .guardEnds 2 .allowed] last ∧
      last.threads 2 = some .finished := by
  obtain ⟨first, hfirst, hmap, hone, htwo, hroot, hfresh, hnode⟩ := oneRegion_run
  let guarding := first.set 2 (.guard 0x1000 1 10)
  let searching := guarding.set 2 (.search 0x1000 1 (some 11))
  have hreads : Step bottomUpRbtree first [.guardReads 2 0x1000 1] guarding :=
    .guardReads _ _ htwo hmap
  have hguard : Step bottomUpRbtree guarding [] searching :=
    .guardRoot (by simp [guarding, System.threads_set]) hroot
  have hallocate := (Run.single hguard).snoc (@Step.allocate _ searching 1 20 []
    (by simp [searching, guarding, System.threads_set, hone]) hfresh)
  have hpublish := hallocate.snoc (@Step.publish _ _ 1 [] 20 (by simp [System.threads_set]))
  have hends := hpublish.snoc (@Step.searchFound _ _ 2 0x1000 1 11 _
    (by simp [searching, System.threads_set]) hnode (by decide))
  exact ⟨first, guarding, _, hfirst, hreads, hmap ▸ Option.some_ne_none 10, hends,
    by simp [System.threads_set]⟩

theorem wideModule_steps :
    ∃ start called loaded last world, (moduleThreads guardedWideModule slotPlatform.interp).starts
        start emptyWorld world ∧
      Steps guardedWideModule slotPlatform.interp ⟨start, world⟩ [] ⟨called, world⟩ ∧
      Steps guardedWideModule slotPlatform.interp ⟨called, world⟩
        [.call "texas_guard" [0x1000, 1]] ⟨loaded, world⟩ ∧
      Steps guardedWideModule slotPlatform.interp ⟨loaded, world⟩ [.load 0 0x1000] ⟨last, world⟩ :=
  ⟨_, _, _, _, _, ⟨"wide", [0x1000], _, _, rfl, rfl, rfl, rfl⟩, rfl, rfl, rfl⟩

theorem wideMachine_checking :
    ∃ machine called loaded final last,
      MachineRun bottomUpRbtree guardedWideModule slotPlatform.interp slotConvention emptyWorld
        [.policy (.publish [⟨0x1000, 8, 1⟩]), .policy (.guardReads 2 0x1000 1)] machine ∧
      machine.modules 0 = some ⟨called, .checking 2 [0x1000, 1]⟩ ∧
      machine.policy.regionMap ≠ none ∧
      Steps guardedWideModule slotPlatform.interp ⟨called, machine.world⟩
        [.call "texas_guard" [0x1000, 1]] ⟨loaded, machine.world⟩ ∧
      Steps guardedWideModule slotPlatform.interp ⟨loaded, machine.world⟩ [.load 0 0x1000]
        ⟨final, machine.world⟩ ∧
      Run (Step bottomUpRbtree) machine.policy [.publish [], .guardEnds 2 .allowed] last ∧
      last.threads 2 = some .finished := by
  obtain ⟨first, middle, last, hfirst, hreads, hmap, hlast, hfinished⟩ := withdrawn_run
  obtain ⟨start, called, loaded, final, world, hstarts, hcast, hcall, hload⟩ := wideModule_steps
  have hpublished : MachineRun bottomUpRbtree guardedWideModule slotPlatform.interp slotConvention
      emptyWorld _ _ := run_policy (Machine.initial emptyWorld) hfirst
  have hstarted := hpublished.snoc (@MachineStep.starts _ _ _ _ _ _ _ 0 _ _ rfl hstarts)
  have hcasted := hstarted.snoc (@MachineStep.moves _ _ _ _ _ _ _ 0 _ _ _ _
    (by simp [Machine.put]) hcast (by simp))
  have hcalled := hcasted.snoc (@MachineStep.guardCalled _ _ _ _ _ _ _ 0 2 _ _ _ _
    (by simp [Machine.put]) hcall hreads)
  exact ⟨_, called, loaded, final, last, hcalled, by simp [Machine.put], hmap, hcall, hload,
    hlast, hfinished⟩

theorem wideMachine_run :
    ∃ machine, MachineRun bottomUpRbtree guardedWideModule slotPlatform.interp slotConvention
      emptyWorld
      [.policy (.publish [⟨0x1000, 8, 1⟩]), .policy (.guardReads 2 0x1000 1),
        .policy (.publish []), .policy (.guardEnds 2 .allowed),
        .module 0 (.call "texas_guard" [0x1000, 1]), .module 0 (.load 0 0x1000)] machine := by
  obtain ⟨machine, called, loaded, final, last, hrun, hthread, _, hcall, hload, hlast,
    hfinished⟩ := wideMachine_checking
  have hchecked := hrun.trans (run_policy _ hlast)
  have hreturned := hchecked.snoc
    (@MachineStep.guardReturns _ _ _ _ _ _ _ 0 2 _ _ _ _ hthread hfinished hcall)
  have hloaded := hreturned.snoc (@MachineStep.moves _ _ _ _ _ _ _ 0 _ _ _ _
    (by simp [Machine.put]) hload (by simp))
  exact ⟨_, hloaded⟩

theorem machine_mediates_wideModule :
    ∃ machine, MachineRun bottomUpRbtree guardedWideModule slotPlatform.interp slotConvention
        emptyWorld
        [.policy (.publish [⟨0x1000, 8, 1⟩]), .policy (.guardReads 2 0x1000 1),
          .policy (.publish []), .policy (.guardEnds 2 .allowed),
          .module 0 (.call "texas_guard" [0x1000, 1]), .module 0 (.load 0 0x1000)] machine ∧
      Explained (AccessChecked bottomUpRbtree wideModule slotConvention)
        [.policy (.publish [⟨0x1000, 8, 1⟩]), .policy (.guardReads 2 0x1000 1),
          .policy (.publish []), .policy (.guardEnds 2 .allowed),
          .module 0 (.call "texas_guard" [0x1000, 1]), .module 0 (.load 0 0x1000)] := by
  obtain ⟨machine, hrun⟩ := wideMachine_run
  exact ⟨machine, hrun, machine_mediates bottomUpRbtree_keepsOrder bottomUpRbtree_shapeOnly
    guardedWideModule_eq (by decide) slotPlatform_guardInert hrun⟩

end Carat

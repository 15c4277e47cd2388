import Carat.WaitFreedom

/-!
# The policy as one register

What the policy module is for, without trees, records and cursors: a register that
holds a list.  A write puts its list in place in one step; a guard or a reader is
settled in the step in which it looks at the register, and later says what was
settled then.

The module shows its users nothing else: its runs and those of the register have the
same traces.
-/

namespace Carat

open SteeredTree LabelledRun

/-- What a call is going to say, if it gets to say anything. -/
inductive Settled where
  | guard (outcome : Outcome GuardOutcome)
  | output (result : Outcome ReadResult)

/-- The list that has been written last, and the calls by their numbers; a call that
has said what it had to say is `some none`. -/
structure Register where
  current : Option (List PolicyNode)
  calls : ℕ → Option (Option Settled)

def Register.initial : Register where
  current := none
  calls := fun _ => none

def Register.set (register : Register) (i : ℕ) (call : Option Settled) : Register :=
  { register with calls := Function.update register.calls i (some call) }

theorem Register.calls_set (register : Register) (i : ℕ) (call : Option Settled) (j : ℕ) :
    (register.set i call).calls j = if j = i then some call else register.calls j := by
  simp [Register.set, Function.update_apply]

inductive RegisterStep (kernel : KernelRbtree) :
    Register → List PolicyEvent → Register → Prop where
  | publish {register : Register} (list : List PolicyNode) :
      RegisterStep kernel register [.publish list] { register with current := some list }
  | guardReads {register : Register} {i : ℕ} {list : List PolicyNode} (ptr : BitVec 64)
      (flags : BitVec 32) :
      register.calls i = none → register.current = some list →
        RegisterStep kernel register [.guardReads i ptr flags]
          (register.set i (some (.guard (texasGuard (publishedPolicy kernel list) ptr flags))))
  | guardEnds {register : Register} {i : ℕ} {outcome : GuardOutcome} :
      register.calls i = some (some (.guard (.returns outcome))) →
        RegisterStep kernel register [.guardEnds i outcome] (register.set i none)
  | outputReads {register : Register} {i : ℕ} {list : List PolicyNode} (call : ReadCall)
      (ppos : ℤ) :
      register.calls i = none → ¬(ppos > 0 ∨ call.count < bufSize) →
        register.current = some list →
        RegisterStep kernel register [.outputReads i call ppos]
          (register.set i (some (.output (outputPolicy (publishedPolicy kernel list) call ppos))))
  | outputEnds {register : Register} {i : ℕ} {result : ReadResult} :
      register.calls i = some (some (.output (.returns result))) →
        RegisterStep kernel register [.outputEnds i result] (register.set i none)

/-! ## What a step of the module is -/

/-- Inside `texas_guard` or `output_policy`. -/
def Thread.Calling : Thread → Prop
  | .guard _ _ _ => True
  | .search _ _ _ => True
  | .output _ _ _ => True
  | .print _ _ _ _ _ => True
  | _ => False

/-- The five kinds of steps that users can tell apart. -/
inductive StepKind (system next : System) (events : List PolicyEvent) (i : ℕ) : Prop where
  | silent : events = [] → (∀ thread, next.threads i = some thread → thread.Calling →
      ∃ old, system.threads i = some old ∧ old.Calling) → StepKind system next events i
  | publishes (list : List PolicyNode) : events = [.publish list] →
      next.threads i = some .finished → StepKind system next events i
  | guardReads (ptr : BitVec 64) (flags : BitVec 32) : events = [.guardReads i ptr flags] →
      system.threads i = none → system.regionMap ≠ none → StepKind system next events i
  | outputReads (call : ReadCall) (ppos : ℤ) : events = [.outputReads i call ppos] →
      system.threads i = none → system.regionMap ≠ none → ¬(ppos > 0 ∨ call.count < bufSize) →
        StepKind system next events i
  | guardEnds (outcome : GuardOutcome) {old : Thread} : events = [.guardEnds i outcome] →
      system.threads i = some old → old.Calling → next.threads i = some .finished →
        StepKind system next events i
  | outputEnds (result : ReadResult) {old : Thread} : events = [.outputEnds i result] →
      system.threads i = some old → old.Calling → next.threads i = some .finished →
        StepKind system next events i

theorem Step.kind {kernel : KernelRbtree} {system next : System} {events : List PolicyEvent}
    (hstep : Step kernel system events next) :
    ∃ i, next.threads i ≠ none ∧ (∀ j, j ≠ i → next.threads j = system.threads j) ∧
      StepKind system next events i := by
  have hset : ∀ (system : System) (i : ℕ) (thread : Thread),
      (system.set i thread).threads i = some thread ∧
        ∀ j, j ≠ i → (system.set i thread).threads j = system.threads j := fun system i thread =>
    ⟨by rw [System.threads_set, if_pos rfl],
      fun j hj => by rw [System.threads_set, if_neg hj]⟩
  have hsilent : ∀ {i : ℕ} {thread old : Thread} {system : System},
      system.threads i = some old → (thread.Calling → old.Calling) →
        StepKind system (system.set i thread) [] i := by
    intro i thread old system hold hcalling
    refine .silent rfl fun found hfound hfoundCalling => ⟨old, hold, ?_⟩
    rw [(hset system i thread).1, Option.some.injEq] at hfound
    exact hcalling (hfound ▸ hfoundCalling)
  cases hstep with
  | allocate list _ _ =>
      refine ⟨_, by simp [System.threads_set], (hset _ _ _).2, .silent rfl ?_⟩
      rintro thread hthread hcalling
      rw [(hset _ _ _).1, Option.some.injEq] at hthread
      exact absurd hcalling (hthread ▸ id)
  | insert _ _ _ =>
      refine ⟨_, by simp [System.threads_set], (hset _ _ _).2, .silent rfl ?_⟩
      rintro thread hthread hcalling
      rw [(hset _ _ _).1, Option.some.injEq] at hthread
      exact absurd hcalling (hthread ▸ id)
  | publish _ =>
      exact ⟨_, by simp [System.threads_set], (hset _ _ _).2, .publishes _ rfl (hset _ _ _).1⟩
  | guardReads ptr flags hfree hroot =>
      exact ⟨_, by simp [System.threads_set], (hset _ _ _).2,
        .guardReads ptr flags rfl hfree (by simp [hroot])⟩
  | guardRoot hthread _ | searchLeft hthread _ _ | searchRight hthread _ _
  | outputRoot hthread _ | printMove hthread _ | printRegion hthread _ _ =>
      exact ⟨_, by simp [System.threads_set], (hset _ _ _).2, hsilent hthread fun _ => trivial⟩
  | searchFound hthread _ _ | searchNull hthread =>
      exact ⟨_, by simp [System.threads_set], (hset _ _ _).2,
        .guardEnds _ rfl hthread trivial (hset _ _ _).1⟩
  | outputReads call ppos hfree hopen hroot =>
      exact ⟨_, by simp [System.threads_set], (hset _ _ _).2,
        .outputReads call ppos rfl hfree (by simp [hroot]) hopen⟩
  | printEnd hthread =>
      exact ⟨_, by simp [System.threads_set], (hset _ _ _).2,
        .outputEnds _ rfl hthread trivial (hset _ _ _).1⟩

/-! ## The module's runs are runs of the register -/

/-- What is settled when this event reads `region_map`. -/
def settle (kernel : KernelRbtree) (list : List PolicyNode) : PolicyEvent → Option Settled
  | .guardReads _ ptr flags => some (.guard (texasGuard (publishedPolicy kernel list) ptr flags))
  | .outputReads _ call ppos =>
      some (.output (outputPolicy (publishedPolicy kernel list) call ppos))
  | _ => none

/-- The register after a trace of the module. -/
structure Register.Follows (kernel : KernelRbtree) (trace : List PolicyEvent) (system : System)
    (register : Register) : Prop where
  current : register.current = lastPublish trace
  free : ∀ i, system.threads i = none → register.calls i = none
  settled : ∀ i thread read list, system.threads i = some thread → thread.Calling →
    read.reader = some i → ReadsLatest i trace read list →
      register.calls i = some (settle kernel list read)

theorem ReadsLatest.of_append {i : ℕ} {trace events : List PolicyEvent} {read : PolicyEvent}
    {list : List PolicyNode} (hreads : ReadsLatest i (trace ++ events) read list)
    (hread : read.reader = some i) (hevents : ∀ event ∈ events, event.reader ≠ some i) :
    ReadsLatest i trace read list := by
  obtain ⟨before, mid, hsplit, hmid, hlast⟩ := hreads
  rcases List.append_eq_append_iff.mp hsplit with ⟨rest, rfl, hrest⟩ | ⟨rest, rfl, hrest⟩
  · exact absurd hread (hevents read (by simp [hrest]))
  · cases rest with
    | nil =>
        have hmem : read ∈ events := by
          rw [List.nil_append] at hrest
          exact hrest ▸ List.mem_cons_self
        exact absurd hread (hevents read hmem)
    | cons first rest =>
        obtain ⟨rfl, rfl⟩ := List.cons.inj hrest
        exact ⟨before, rest, rfl, fun event hevent => hmid event (by simp [hevent]), hlast⟩

theorem ReadsLatest.of_snoc {i : ℕ} {trace : List PolicyEvent} {read event : PolicyEvent}
    {list : List PolicyNode} (hreads : ReadsLatest i (trace ++ [event]) read list)
    (hread : read.reader = some i) (hevent : event.reader = some i) :
    read = event ∧ lastPublish trace = some list := by
  obtain ⟨before, mid, hsplit, hmid, hlast⟩ := hreads
  obtain ⟨rfl, rfl⟩ := last_unique (fun event => event.reader = some i) hsplit hevent hread
    (by simp) hmid
  exact ⟨rfl, hlast⟩

theorem lastPublish_publish (trace : List PolicyEvent) (list : List PolicyNode) :
    lastPublish (trace ++ [.publish list]) = some list := by
  simp [lastPublish]

section Following

variable {kernel : KernelRbtree} {trace events : List PolicyEvent} {system next : System}
  {register : Register}

/-- Thread `i` moves without reading `region_map`; the register may note that a call
of its has ended. -/
theorem Register.Follows.moves (hfollows : register.Follows kernel trace system) {i : ℕ}
    (hmoved : next.threads i ≠ none)
    (hothers : ∀ j, j ≠ i → next.threads j = system.threads j)
    (hevents : ∀ event ∈ events, event.reader = none) {register' : Register}
    (hcurrent : register'.current = lastPublish (trace ++ events))
    (hcalls : ∀ j, j ≠ i → register'.calls j = register.calls j)
    (hmine : ∀ thread, next.threads i = some thread → thread.Calling →
      register'.calls i = register.calls i ∧ ∃ old, system.threads i = some old ∧ old.Calling) :
    register'.Follows kernel (trace ++ events) next where
  current := hcurrent
  free := by
    intro j hfree
    have hj : j ≠ i := by
      rintro rfl
      exact hmoved hfree
    rw [hcalls j hj]
    exact hfollows.free j ((hothers j hj).symm.trans hfree)
  settled := by
    intro j thread read list hthread hcalling hread hlatest
    have hlatest' := hlatest.of_append hread
      fun event hevent => by simp [hevents event hevent]
    by_cases hj : j = i
    · subst j
      obtain ⟨hsame, old, hold, holdCalling⟩ := hmine thread hthread hcalling
      rw [hsame]
      exact hfollows.settled i old read list hold holdCalling hread hlatest'
    · rw [hcalls j hj]
      rw [hothers j hj] at hthread
      exact hfollows.settled j thread read list hthread hcalling hread hlatest'

theorem Register.Follows.publishes (hfollows : register.Follows kernel trace system) {i : ℕ}
    (hothers : ∀ j, j ≠ i → next.threads j = system.threads j)
    (hended : next.threads i = some .finished) (list : List PolicyNode) :
    Register.Follows kernel (trace ++ [.publish list]) next
      { register with current := some list } := by
  refine hfollows.moves (by simp [hended]) hothers (by simp [PolicyEvent.reader])
    (lastPublish_publish trace list).symm (fun _ _ => rfl) fun thread hthread hcalling => ?_
  obtain rfl := Option.some.inj (hended.symm.trans hthread)
  exact absurd hcalling id

theorem Register.Follows.reads (hfollows : register.Follows kernel trace system) {i : ℕ}
    (hmoved : next.threads i ≠ none)
    (hothers : ∀ j, j ≠ i → next.threads j = system.threads j) {event : PolicyEvent}
    (hevent : event.reader = some i) {list : List PolicyNode}
    (hlast : lastPublish trace = some list) :
    (register.set i (settle kernel list event)).Follows kernel (trace ++ [event]) next where
  current := by
    have hsilent : lastPublish (trace ++ [event]) = lastPublish trace :=
      lastPublish_append (fun list' hmem => by
        obtain rfl := List.mem_singleton.mp hmem
        cases hevent) trace
    exact hfollows.current.trans hsilent.symm
  free := by
    intro j hfree
    have hj : j ≠ i := by
      rintro rfl
      exact hmoved hfree
    rw [Register.calls_set, if_neg hj]
    exact hfollows.free j ((hothers j hj).symm.trans hfree)
  settled := by
    intro j thread read list' hthread hcalling hread hlatest
    by_cases hj : j = i
    · subst j
      obtain ⟨rfl, hlast'⟩ := hlatest.of_snoc hread hevent
      obtain rfl := Option.some.inj (hlast.symm.trans hlast')
      rw [Register.calls_set, if_pos rfl]
    · have hlatest' := hlatest.of_append hread
        (by simpa [hevent] using fun heq : i = j => hj heq.symm)
      rw [hothers j hj] at hthread
      rw [Register.calls_set, if_neg hj]
      exact hfollows.settled j thread read list' hthread hcalling hread hlatest'

theorem Register.Follows.ends (hfollows : register.Follows kernel trace system) {i : ℕ}
    (hothers : ∀ j, j ≠ i → next.threads j = system.threads j)
    (hended : next.threads i = some .finished) {event : PolicyEvent}
    (hreader : event.reader = none) (hpublish : ∀ list, event ≠ .publish list) :
    (register.set i none).Follows kernel (trace ++ [event]) next := by
  have hsilent : lastPublish (trace ++ [event]) = lastPublish trace :=
    lastPublish_append (fun list hmem => hpublish list (List.mem_singleton.mp hmem).symm) trace
  refine hfollows.moves (by simp [hended]) hothers (by simpa using hreader)
    (hfollows.current.trans hsilent.symm)
    (fun j hj => by rw [Register.calls_set, if_neg hj]) fun thread hthread hcalling => ?_
  obtain rfl := Option.some.inj (hended.symm.trans hthread)
  exact absurd hcalling id

theorem Register.Follows.guardEnds (hfollows : register.Follows kernel trace system) {i : ℕ}
    {thread : Thread} (hthread : system.threads i = some thread) (hcalling : thread.Calling)
    {outcome : GuardOutcome} (hgood : Good kernel (trace ++ [.guardEnds i outcome]) next) :
    register.calls i = some (some (.guard (.returns outcome))) := by
  obtain ⟨ptr, flags, list, hlatest, hverdict⟩ := hgood.2 trace _ [] rfl
  have hsettled := hfollows.settled i thread _ list hthread hcalling rfl hlatest
  rwa [settle, hverdict] at hsettled

theorem Register.Follows.outputEnds (hfollows : register.Follows kernel trace system) {i : ℕ}
    {thread : Thread} (hthread : system.threads i = some thread) (hcalling : thread.Calling)
    {result : ReadResult} (hgood : Good kernel (trace ++ [.outputEnds i result]) next) :
    register.calls i = some (some (.output (.returns result))) := by
  obtain ⟨call, ppos, list, hlatest, hresult⟩ := hgood.2 trace _ [] rfl
  have hsettled := hfollows.settled i thread _ list hthread hcalling rfl hlatest
  rwa [settle, hresult] at hsettled

end Following

/-- The module refines the register: whatever readers and writers do at the same
time, a register whose operations are single steps can show the same. -/
theorem run_refines_register {kernel : KernelRbtree} (hkernel : kernel.KeepsOrder)
    (hshape : kernel.ShapeOnly) {trace : List PolicyEvent} {system : System}
    (hrun : Run (Step kernel) System.initial trace system) :
    ∃ register, Run (RegisterStep kernel) Register.initial trace register ∧
      register.Follows kernel trace system := by
  induction hrun with
  | nil => exact ⟨Register.initial, .nil, rfl, fun _ _ => rfl, by simp [System.initial]⟩
  | @snoc trace events system next hbefore hstep ih =>
      obtain ⟨register, hregister, hfollows⟩ := ih
      obtain ⟨⟨forest, hcoherent⟩, _⟩ := good_of_run hkernel hshape hbefore
      have hgood := good_of_run hkernel hshape (hbefore.snoc hstep)
      have hcurrent : system.regionMap ≠ none → ∃ list, lastPublish trace = some list := by
        intro hmap
        obtain ⟨root, hroot⟩ := Option.ne_none_iff_exists'.mp hmap
        obtain ⟨site, _, _, hlast⟩ := hcoherent.published root hroot
        exact ⟨_, hlast⟩
      obtain ⟨i, hmoved, hothers, hkind⟩ := hstep.kind
      cases hkind with
      | silent hevents hlive =>
          subst hevents
          rw [List.append_nil]
          refine ⟨register, hregister, ?_⟩
          have hsame : register.Follows kernel (trace ++ []) next :=
            hfollows.moves hmoved hothers (by simp) (by simpa using hfollows.current)
              (fun _ _ => rfl) fun thread hthread hcalling =>
                ⟨rfl, hlive thread hthread hcalling⟩
          rwa [List.append_nil] at hsame
      | publishes list hevents hended =>
          subst hevents
          exact ⟨_, hregister.snoc (.publish list), hfollows.publishes hothers hended list⟩
      | guardReads ptr flags hevents hfree hmap =>
          subst hevents
          obtain ⟨list, hlast⟩ := hcurrent hmap
          exact ⟨_, hregister.snoc (.guardReads ptr flags (hfollows.free i hfree)
            (hfollows.current.trans hlast)), hfollows.reads hmoved hothers rfl hlast⟩
      | outputReads call ppos hevents hfree hmap hopen =>
          subst hevents
          obtain ⟨list, hlast⟩ := hcurrent hmap
          exact ⟨_, hregister.snoc (.outputReads call ppos (hfollows.free i hfree) hopen
            (hfollows.current.trans hlast)), hfollows.reads hmoved hothers rfl hlast⟩
      | guardEnds outcome hevents hold hcalling hended =>
          subst hevents
          exact ⟨_, hregister.snoc (.guardEnds (hfollows.guardEnds hold hcalling hgood)),
            hfollows.ends hothers hended rfl (by simp)⟩
      | outputEnds result hevents hold hcalling hended =>
          subst hevents
          exact ⟨_, hregister.snoc (.outputEnds (hfollows.outputEnds hold hcalling hgood)),
            hfollows.ends hothers hended rfl (by simp)⟩

end Carat

import Carat.MachineProgress
import Carat.Mediation

/-!
# The policy advises

`texas_guard` prints and returns; nothing is prevented.  So the machine can do what
the module did before it was instrumented, and no more, whatever policy is in force:
a denial is a line in the log.  Only a guard that finds no policy at all stops its
thread.
-/

namespace Carat

open SteeredTree LabelledRun Interleaving

variable {Val World : Type}

/-- The machine has done what this pool of the original has done; a thread may be one
guard call ahead. -/
structure Accompanies (M : Module) (interp : Interp Val World)
    (trace : List (MachineEvent Val)) (machine : Machine Val World)
    (trace₀ : List (ℕ × Event Val)) (pool : ModulePool Val World) : Prop where
  world : machine.world = pool.shared
  order : trace₀.Sublist (moduleTrace trace)
  shown : ∀ i, ∃ pending,
    shownBy i trace = (ofThread i trace₀).flatMap (withGuards M interp) ++ pending ∧
      (pending = [] ∨ ∃ frames, pool.thread i = some frames ∧
        Pending M interp ⟨frames, pool.shared⟩ pending)
  ended : ∀ i, machine.pool.thread i = some [] ↔ pool.thread i = some []

section Backward

variable {kernel : KernelRbtree} {M M' : Module} {before : InstId → List Inst}
  {interp : Interp Val World} {convention : CallingConvention interp} {world : World}
  {trace : List (MachineEvent Val)} {machine : Machine Val World}

theorem MachineRun.accompanies (hinst : Instrumented M M' before)
    (hexternal : M.definition? "texas_guard" = none) (hinert : GuardInert interp)
    (hrun : MachineRun kernel M' interp convention world trace machine) :
    ∃ trace₀ pool, PoolRun M interp world trace₀ pool ∧
      Accompanies M interp trace machine trace₀ pool := by
  obtain ⟨trace₀, pool, pending, hrun₀, hlags⟩ :=
    (hinst.lags hexternal hinert).reflect (MachineRun.pool hrun)
  refine ⟨trace₀, pool, hrun₀, hlags.shared, hlags.sublist,
    fun i => ⟨pending i, hlags.shown i, ?_⟩, fun i => ?_⟩
  · cases hthread : machine.pool.thread i with
    | none => exact Or.inl (hlags.idle i hthread)
    | some frames' =>
        obtain ⟨frames, hframes, hahead⟩ := hlags.thread_some hthread
        exact Or.inr ⟨frames, hframes, (hahead pool.shared).spec.1⟩
  · cases hthread : machine.pool.thread i with
    | none => simp [hlags.thread_none hthread]
    | some frames' =>
        obtain ⟨frames, hframes, hahead⟩ := hlags.thread_some hthread
        rw [hframes, Option.some.injEq, Option.some.injEq]
        exact (hahead pool.shared).spec.2.2

end Backward

/-! ## Whatever the policy, the module can go on -/

/-- No thread is inside the guard, and a guard finds a policy. -/
structure Machine.Mirrors (machine : Machine Val World) (pool : ModulePool Val World) :
    Prop where
  pool : machine.pool = pool
  running : ∀ i thread, machine.modules i = some thread → thread.activity = .running
  published : machine.policy.regionMap ≠ none

theorem Machine.Mirrors.thread {machine : Machine Val World} {pool : ModulePool Val World}
    (hmirrors : machine.Mirrors pool) {i : ℕ} {frames : List (Frame Val)}
    (hthread : pool.thread i = some frames) : machine.modules i = some ⟨frames, .running⟩ := by
  rw [← hmirrors.pool] at hthread
  obtain ⟨⟨_, activity⟩, hmodule, rfl⟩ := Option.map_eq_some_iff.mp hthread
  obtain rfl := hmirrors.running i _ hmodule
  exact hmodule

theorem Machine.Mirrors.put {machine : Machine Val World} {pool : ModulePool Val World}
    (hmirrors : machine.Mirrors pool) (i : ℕ) (frames : List (Frame Val)) (world : World)
    {policy : System} (hpolicy : policy.regionMap ≠ none) :
    (Machine.put ⟨machine.modules, world, policy⟩ i ⟨frames, .running⟩).Mirrors
      (pool.put i frames world) where
  pool := by rw [Machine.pool_put, ← hmirrors.pool]; rfl
  running := by
    intro j thread hthread
    by_cases hj : j = i
    · subst j
      obtain rfl : ⟨frames, .running⟩ = thread := by simpa [Machine.put] using hthread
      rfl
    · exact hmirrors.running j thread (by simpa [Machine.put, hj] using hthread)
  published := hpolicy

section Forward

variable {kernel : KernelRbtree} (hkernel : kernel.KeepsOrder) (hshape : kernel.ShapeOnly)
  {M M' : Module} {interp : Interp Val World} (convention : CallingConvention interp)
  {world : World} {trace : List (MachineEvent Val)} {machine : Machine Val World}

include hkernel hshape

/-- Any run of an instrumented pool, under any policy. -/
theorem machine_of_pool {trace' : List (ℕ × Event Val)} {pool : ModulePool Val World}
    (hpool : PoolRun M' interp world trace' pool) {written : List PolicyEvent} {policy : System}
    (hpolicy : Run (Step kernel) System.initial written policy)
    (hpublished : policy.regionMap ≠ none) :
    ∃ trace machine, MachineRun kernel M' interp convention world
        (written.map .policy ++ trace) machine ∧ machine.Mirrors pool ∧
      moduleTrace trace = trace' ∧ ∀ list, .publish list ∉ policyTrace trace := by
  induction hpool with
  | nil =>
      exact ⟨[], _, by simpa using run_policy (Machine.initial world) hpolicy,
        ⟨rfl, by simp [Machine.initial], hpublished⟩, rfl, by simp [policyTrace]⟩
  | snoc _ hstep ih =>
      obtain ⟨trace, machine, hrun, hmirrors, hshown, hsilent⟩ := ih
      obtain rfl := hmirrors.pool
      cases hstep with
      | @starts i frames world' hfree hstarts =>
          have hnone : machine.modules i = none := Option.map_eq_none_iff.mp hfree
          exact ⟨trace, _, by simpa using hrun.snoc (.starts hnone hstarts),
            hmirrors.put i frames world' hmirrors.published, by simpa using hshown, hsilent⟩
      | @moves i frames frames' events world' hthread hmoves =>
          have hrunning := hmirrors.thread hthread
          by_cases hguard : ∃ args, .call "texas_guard" args ∈ events
          · obtain ⟨args, hmem⟩ := hguard
            obtain rfl := eq_guard_of_mem hmoves hmem
            obtain ⟨j, shown, _, halone, hnone⟩ := run_guard hkernel hshape
              ⟨_, MachineRun.policy hrun⟩ hmirrors.published hrunning hmoves
            have hcall : Run (MachineStep kernel M' interp convention) machine _ _ :=
              halone.mono fun _ _ _ hstep => hstep.step
            have hpublished' : (machine.policy.set j .finished).regionMap ≠ none :=
              hmirrors.published
            refine ⟨trace ++ (shown.map .policy ++ [.module i (.call "texas_guard" args)]), _,
              by simpa using hrun.trans hcall,
              hmirrors.put i frames' world' hpublished',
              by simp [hshown], by simpa [hnone] using hsilent⟩
          · refine ⟨trace ++ events.map (.module i), _,
              by simpa using hrun.snoc (.moves hrunning hmoves (not_exists.mp hguard)),
              hmirrors.put i frames' world' hmirrors.published, by simp [hshown],
              by simpa using hsilent⟩

/-- **The policy is advisory.**  What the machine does the original does without any
policy, and what the original does the machine can do under every policy that has been
published, with its guard calls in front of the accesses. -/
theorem policy_advises {toGuardOrder allGuardsOrder : IterationOrder} {fuel : ℕ}
    (hpass : runOnModule toGuardOrder allGuardsOrder fuel M = some M')
    (hexternal : M.definition? "texas_guard" = none) (hinert : GuardInert interp)
    (world : World) :
    (∀ trace machine, MachineRun kernel M' interp convention world trace machine →
      ∃ trace₀ pool, PoolRun M interp world trace₀ pool ∧
        Accompanies M interp trace machine trace₀ pool) ∧
    ∀ trace₀ pool written policy, PoolRun M interp world trace₀ pool →
      Run (Step kernel) System.initial written policy → policy.regionMap ≠ none →
        ∃ trace machine,
          MachineRun kernel M' interp convention world (written.map .policy ++ trace) machine ∧
          moduleTrace trace =
            trace₀.flatMap (fun event => byThread event.1 (withGuards M interp event.2)) ∧
          (∀ list, .publish list ∉ policyTrace trace) ∧ machine.world = pool.shared ∧
          ∀ i, machine.pool.thread i = some [] ↔ pool.thread i = some [] := by
  obtain ⟨before, hinst⟩ := runOnModule_instrumented hpass
  refine ⟨fun _ _ hrun => MachineRun.accompanies hinst hexternal hinert hrun,
    fun trace₀ pool written policy hpool hpolicy hpublished => ?_⟩
  obtain ⟨pool', hpool', hfollows⟩ := (hinst.poolFollows hexternal hinert).simulate hpool
  obtain ⟨trace, machine, hrun, hmirrors, hshown, hsilent⟩ :=
    machine_of_pool hkernel hshape convention hpool' hpolicy hpublished
  obtain rfl := hmirrors.pool
  refine ⟨trace, machine, hrun, hshown, hsilent, hfollows.shared, fun i => ?_⟩
  have hthread := hfollows.threads i
  generalize pool.thread i = frames at hthread
  generalize machine.pool.thread i = frames' at hthread
  cases hthread with
  | none => simp
  | some hlevel => cases hlevel <;> simp

end Forward

/-! ## A load that no policy allows -/

theorem withGuards_wideModule :
    withGuards wideModule slotPlatform.interp (.load 0 0x1000) =
      [guardEvent slotPlatform.interp 0x1000 1, .load 0 0x1000] := by
  have hnot : ¬ExemptAccess wideModule 0 := by
    rintro ⟨I, hI, hid, ptr, flags, haccess, hexempt⟩
    obtain rfl | rfl : I = ⟨0, .int 64, .load (.arg 0 (.ptr (.int 64)))⟩ ∨
        I = ⟨1, .void, .ret none⟩ := by
      simpa [Module.insts, Function.insts, wideModule] using hI
    · obtain ⟨rfl, _⟩ := Prod.mk.inj (Option.some.inj haccess)
      exact not_exempt_arg _ _ _ hexempt
    · cases haccess
  simp [withGuards, Event.access, hnot, texasGuardLoad]

theorem widePool_run :
    ∃ pool, PoolRun wideModule slotPlatform.interp emptyWorld [(0, .load 0 0x1000)] pool := by
  obtain ⟨start, last, world, hstarts, hmoves⟩ :
      ∃ start last world,
        (moduleThreads wideModule slotPlatform.interp).starts start emptyWorld world ∧
        (moduleThreads wideModule slotPlatform.interp).moves start world [.load 0 0x1000]
          last world :=
    ⟨_, _, _, ⟨"wide", [0x1000], _, _, rfl, rfl, rfl, rfl⟩, rfl⟩
  have hstarted := Run.nil.snoc
    (@Pool.Step.starts ℕ _ _ _ _ _ (Pool.idle emptyWorld) 0 _ _ rfl hstarts)
  have hthread : ((Pool.idle emptyWorld).put 0 start world).thread 0 = some start := by
    simp [Pool.put]
  have hmoved := hstarted.snoc (.moves hthread hmoves)
  exact ⟨_, hmoved⟩

theorem noRegion_run :
    ∃ policy, Run (Step bottomUpRbtree) System.initial [.publish []] policy ∧
      policy.regionMap ≠ none := by
  have hallocate := Run.nil.snoc
    (@Step.allocate bottomUpRbtree System.initial 0 10 [] rfl ⟨rfl, rfl⟩)
  exact ⟨_, hallocate.snoc (.publish (i := 0) rfl), Option.some_ne_none 10⟩

/-- No region is published, and the load takes place. -/
theorem policy_advises_wideModule :
    ∃ trace machine, MachineRun bottomUpRbtree guardedWideModule slotPlatform.interp
        slotConvention emptyWorld (.policy (.publish []) :: trace) machine ∧
      moduleTrace trace = [(0, .call "texas_guard" [0x1000, 1]), (0, .load 0 0x1000)] ∧
      ∀ list, .publish list ∉ policyTrace trace := by
  obtain ⟨pool, hpool⟩ := widePool_run
  obtain ⟨policy, hpolicy, hpublished⟩ := noRegion_run
  obtain ⟨_, hforward⟩ := policy_advises bottomUpRbtree_keepsOrder bottomUpRbtree_shapeOnly
    slotConvention guardedWideModule_eq (by decide) slotPlatform_guardInert emptyWorld
  obtain ⟨trace, machine, hrun, hshown, hsilent, _⟩ :=
    hforward _ pool _ policy hpool hpolicy hpublished
  refine ⟨trace, machine, hrun, ?_, hsilent⟩
  rw [hshown, List.flatMap_singleton, withGuards_wideModule]
  rfl

end Carat

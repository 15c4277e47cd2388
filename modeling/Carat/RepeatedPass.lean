import Carat.GuardedAccess
import Carat.SsaForm

/-!
# The pass applied again

What the pass inserts is no load and no store, and the walk from an old pointer
passes old instructions only.  An instrumented module therefore needs the guards
that the original needs: nothing tells the pass that they are there already.
Applied several times, as it would be if it were added to several pipelines, it
puts as many guard calls in front of each access.
-/

namespace Carat

open LabelledRun Weaving

variable {Val World : Type}

/-- The passes of a pipeline, each with its own traversal orders. -/
def runPasses (fuel : ℕ) : List (IterationOrder × IterationOrder) → Module → Option Module
  | [], M => some M
  | orders :: rest, M =>
      (runOnModule orders.1 orders.2 fuel M).bind fun M => runPasses fuel rest M

/-! ## What an instrumented module needs -/

/-- The value is no instruction, or one that the module may mention. -/
def Module.Knows (M : Module) (v : Value) : Prop := ∀ id ∈ v.id?, id < M.freshId

theorem Module.knows_of_mem {M : Module} {I : Inst} (hI : I ∈ M.insts) {v : Value}
    (hv : v ∈ I.op.values) : M.Knows v := fun _ hid =>
  M.mentions_lt_freshId hI (List.mem_cons_of_mem _ (List.mem_filterMap.mpr ⟨v, hv, hid⟩))

namespace Instrumented

variable {M M' : Module} {before : InstId → List Inst} (hinst : Instrumented M M' before)

include hinst

theorem mem_insts {I : Inst} (hI : I ∈ M.insts) : I ∈ M'.insts := by
  rw [hinst.woven.insts, mem_weave, M.insts_getOrInsertFunction]
  exact Or.inl hI

theorem mem_insts_cases {J : Inst} (hJ : J ∈ M'.insts) :
    J ∈ M.insts ∨ M.freshId ≤ J.id ∧ J.op.access = none := by
  rw [hinst.woven.insts, mem_weave, M.insts_getOrInsertFunction] at hJ
  rcases hJ with hJ | ⟨I, hI, hJ⟩
  · exact Or.inl hJ
  · right
    by_cases hneeds : ∃ guard, NeedsGuard M I guard
    · obtain ⟨guard, hneeds⟩ := hneeds
      have hsequence := hinst.guarded I hI guard hneeds
      generalize before I.id = sequence at hsequence hJ
      cases hsequence with
      | plain _ hcall | folded _ hcall =>
          obtain rfl := List.mem_singleton.mp hJ
          exact ⟨hcall, rfl⟩
      | cast hcast hcall =>
          simp only [List.mem_cons, List.not_mem_nil, or_false] at hJ
          rcases hJ with rfl | rfl
          · exact ⟨hcast, rfl⟩
          · exact ⟨hcall, rfl⟩
    · rw [hinst.unguarded I hI (not_exists.mp hneeds)] at hJ
      simp at hJ

theorem inst?_eq {id : InstId} (hid : id < M.freshId) : M'.inst? id = M.inst? id := by
  cases hold : M.inst? id with
  | some I =>
      have hI : I ∈ M.insts := List.mem_of_find?_eq_some hold
      obtain rfl : I.id = id := by simpa using List.find?_some hold
      exact M'.inst?_of_mem (hinst.mem_insts hI)
  | none =>
      cases hnew : M'.inst? id with
      | none => rfl
      | some J =>
          obtain rfl : J.id = id := by simpa using List.find?_some hnew
          rcases hinst.mem_insts_cases (List.mem_of_find?_eq_some hnew) with hJ | ⟨hfresh, _⟩
          · rw [M.inst?_of_mem hJ] at hold
            cases hold
          · exact absurd hid hfresh.not_gt

theorem getInternalPointer_eq {v : Value} (hv : M.Knows v) :
    getInternalPointer M' v = getInternalPointer M v := by
  cases v with
  | arg index ty => rfl
  | const value => rfl
  | inst id ty => simp only [getInternalPointer, hinst.inst?_eq (hv id rfl)]

omit hinst in
theorem knows_internal {v internal : Value} (hinternal : Internal M v internal) :
    M.Knows internal := by
  obtain ⟨D, hD, _, _, hmem⟩ := hinternal.cases
  exact M.knows_of_mem hD hmem

theorem baseOf_iff {v base : Value} (hv : M.Knows v) : BaseOf M' v base ↔ BaseOf M v base := by
  constructor
  · intro hbase
    induction hbase with
    | here hnext => exact .here ((hinst.getInternalPointer_eq hv).symm.trans hnext)
    | step hnext _ ih =>
        rw [hinst.getInternalPointer_eq hv] at hnext
        exact .step hnext (ih (knows_internal hnext))
  · intro hbase
    induction hbase with
    | here hnext => exact .here ((hinst.getInternalPointer_eq hv).trans hnext)
    | step hnext _ ih =>
        exact .step ((hinst.getInternalPointer_eq hv).trans hnext) (ih (knows_internal hnext))

theorem exempt_iff {ptr : Value} (hptr : M.Knows ptr) : Exempt M' ptr ↔ Exempt M ptr := by
  have halloca : ∀ {v : Value}, M.Knows v → isAlloca M' v = isAlloca M v := by
    intro v hv
    cases v with
    | arg index ty => rfl
    | const value => rfl
    | inst id ty => simp only [isAlloca, hinst.inst?_eq (hv id rfl)]
  have hredundant : isRedundant M' ptr = isRedundant M ptr := by
    cases ptr with
    | arg index ty => rfl
    | const value => rfl
    | inst id ty => simp only [isRedundant, hinst.inst?_eq (hptr id rfl)]
  have hbase : ∀ {base : Value}, BaseOf M ptr base → M.Knows base := by
    intro base hbase
    clear hredundant
    induction hbase with
    | here _ => exact hptr
    | step hnext _ ih => exact ih (knows_internal hnext)
  unfold Exempt
  rw [hredundant]
  refine or_congr_left (exists_congr fun base => ?_)
  rw [hinst.baseOf_iff hptr]
  exact and_congr_right fun h => by rw [halloca (hbase h)]

/-- The loads and stores of an instrumented module are those of the original. -/
theorem mem_insts_of_access {J : Inst} (hJ : J ∈ M'.insts) {ptr : Value} {flags : ℕ}
    (haccess : J.op.access = some (ptr, flags)) : J ∈ M.insts := by
  rcases hinst.mem_insts_cases hJ with hJ | ⟨_, hnone⟩
  · exact hJ
  · simp [haccess] at hnone

theorem exemptAccess_eq : ExemptAccess M' = ExemptAccess M := by
  funext id
  apply propext
  constructor
  · rintro ⟨J, hJ, hid, ptr, flags, haccess, hexempt⟩
    have hI := hinst.mem_insts_of_access hJ haccess
    have hknows := M.knows_of_mem hI (Op.access_mem_values haccess).1
    exact ⟨J, hI, hid, ptr, flags, haccess, (hinst.exempt_iff hknows).mp hexempt⟩
  · rintro ⟨I, hI, hid, ptr, flags, haccess, hexempt⟩
    have hknows := M.knows_of_mem hI (Op.access_mem_values haccess).1
    exact ⟨I, hinst.mem_insts hI, hid, ptr, flags, haccess, (hinst.exempt_iff hknows).mpr hexempt⟩

theorem withGuards_eq (interp : Interp Val World) : withGuards M' interp = withGuards M interp := by
  unfold withGuards
  rw [hinst.exemptAccess_eq]

theorem walksEnd_again_iff : M'.WalksEnd ↔ M.WalksEnd := by
  constructor
  · intro hends I hI ptr flags haccess
    have hknows := M.knows_of_mem hI (Op.access_mem_values haccess).1
    obtain ⟨base, hbase⟩ := hends I (hinst.mem_insts hI) ptr flags haccess
    exact ⟨base, (hinst.baseOf_iff hknows).mp hbase⟩
  · intro hends J hJ ptr flags haccess
    have hI := hinst.mem_insts_of_access hJ haccess
    have hknows := M.knows_of_mem hI (Op.access_mem_values haccess).1
    obtain ⟨base, hbase⟩ := hends J hI ptr flags haccess
    exact ⟨base, (hinst.baseOf_iff hknows).mpr hbase⟩

theorem definition?_eq_none_iff (name : String) :
    M'.definition? name = none ↔ M.definition? name = none := by
  rw [hinst.definition?_eq, Option.map_eq_none_iff]

end Instrumented

/-! ## Several passes -/

/-- An event with as many guard calls in front as passes have seen the access. -/
noncomputable def withGuardsTimes (count : ℕ) (M : Module) (interp : Interp Val World)
    (event : Event Val) : List (Event Val) :=
  match event.access with
  | some (id, ptr, flags) =>
      open Classical in
      if ExemptAccess M id then [event]
      else List.replicate count (guardEvent interp ptr flags) ++ [event]
  | none => [event]

/-- Every run of `M` is a run of `M'` with that many calls in front of each access
that is not exempt, and every run of `M'` is one of these, perhaps cut off after some
of the calls that belong to the next access. -/
structure RunsWithGuardsTimes (count : ℕ) (M M' : Module) (interp : Interp Val World) :
    Prop where
  forward : ∀ name args world trace last, ModuleRun M interp name args world trace last →
    ∃ last', ModuleRun M' interp name args world
        (trace.flatMap (withGuardsTimes count M interp)) last' ∧
      last'.world = last.world ∧ (last'.frames = [] ↔ last.frames = [])
  backward : ∀ name args world trace' last',
    ModuleRun M' interp name args world trace' last' →
      ∃ trace last pending, ModuleRun M interp name args world trace last ∧
        trace' = trace.flatMap (withGuardsTimes count M interp) ++ pending ∧
        pending.length ≤ count ∧ (∀ event ∈ pending, ∃ p flags, event = guardEvent interp p flags) ∧
        last'.world = last.world ∧ (last'.frames = [] ↔ last.frames = [])

theorem flatMap_withGuardsTimes_succ (count : ℕ) (M : Module) (interp : Interp Val World)
    (trace : List (Event Val)) :
    (trace.flatMap (withGuardsTimes count M interp)).flatMap (withGuards M interp) =
      trace.flatMap (withGuardsTimes (count + 1) M interp) := by
  have hcalls : ∀ (p : Val) (flags : ℕ),
      (List.replicate count (guardEvent interp p flags)).flatMap (withGuards M interp) =
        List.replicate count (guardEvent interp p flags) := by
    intro p flags
    simp [List.flatMap_replicate, withGuards, guardEvent, Event.access]
  rw [List.flatMap_assoc]
  refine List.flatMap_congr fun event _ => ?_
  cases haccess : event.access with
  | none => simp [withGuardsTimes, withGuards, haccess]
  | some access =>
      obtain ⟨id, p, flags⟩ := access
      by_cases hexempt : ExemptAccess M id
      · simp [withGuardsTimes, withGuards, haccess, hexempt]
      · simp [withGuardsTimes, haccess, hexempt, hcalls, withGuards, List.replicate_succ']

theorem runsWithGuardsTimes_zero (M : Module) (interp : Interp Val World) :
    RunsWithGuardsTimes 0 M M interp := by
  have hsame : withGuardsTimes 0 M interp = fun event => [event] := by
    funext event
    unfold withGuardsTimes
    cases event.access <;> simp
  constructor
  · intro name args world trace last hrun
    exact ⟨last, by simpa [hsame] using hrun, rfl, Iff.rfl⟩
  · intro name args world trace last hrun
    exact ⟨trace, last, [], hrun, by simp [hsame], by simp, by simp, rfl, Iff.rfl⟩

theorem RunsWithGuardsTimes.succ {count : ℕ} {M M₁ M₂ : Module} {interp : Interp Val World}
    (hfirst : RunsWithGuardsTimes count M M₁ interp) (hnext : RunsWithGuards M₁ M₂ interp)
    (hsame : withGuards M₁ interp = withGuards M interp) :
    RunsWithGuardsTimes (count + 1) M M₂ interp where
  forward := by
    intro name args world trace last hrun
    obtain ⟨last₁, hrun₁, hworld₁, hframes₁⟩ := hfirst.forward _ _ _ _ _ hrun
    obtain ⟨last₂, hrun₂, hworld₂, hframes₂⟩ := hnext.forward _ _ _ _ _ hrun₁
    rw [hsame, flatMap_withGuardsTimes_succ] at hrun₂
    exact ⟨last₂, hrun₂, hworld₂.trans hworld₁, hframes₂.trans hframes₁⟩
  backward := by
    intro name args world trace₂ last₂ hrun₂
    obtain ⟨trace₁, last₁, more, hrun₁, rfl, hmore, hworld₁, hframes₁⟩ :=
      hnext.backward _ _ _ _ _ hrun₂
    obtain ⟨trace, last, pending, hrun, rfl, hlength, hcalls, hworld, hframes⟩ :=
      hfirst.backward _ _ _ _ _ hrun₁
    -- calls that were pending before are not guarded themselves
    have hpending : pending.flatMap (withGuards M interp) = pending := by
      refine (List.flatMap_congr fun event hevent => ?_).trans (List.flatMap_singleton' pending)
      obtain ⟨p, flags, rfl⟩ := hcalls event hevent
      rfl
    obtain ⟨hshort, hguards⟩ : more.length ≤ 1 ∧
        ∀ event ∈ more, ∃ p flags, event = guardEvent interp p flags := by
      rcases hmore with rfl | ⟨_, _, _, _, guard, p, _, _, _, _, rfl⟩
      · simp
      · exact ⟨le_rfl, fun event hevent => ⟨p, guard.flags, List.mem_singleton.mp hevent⟩⟩
    refine ⟨trace, last, pending ++ more, hrun, ?_, ?_, ?_, hworld₁.trans hworld,
      hframes₁.trans hframes⟩
    · rw [hsame, List.flatMap_append, flatMap_withGuardsTimes_succ, hpending,
        List.append_assoc]
    · rw [List.length_append]
      omega
    · exact fun event hevent => (List.mem_append.mp hevent).elim (hcalls event) (hguards event)

theorem runPasses_runs {fuel : ℕ} {orders : List (IterationOrder × IterationOrder)}
    {M M' : Module} (hruns : runPasses fuel orders M = some M')
    (hexternal : M.definition? "texas_guard" = none) {interp : Interp Val World}
    (hinert : GuardInert interp) {count : ℕ} {M₀ : Module}
    (hfirst : RunsWithGuardsTimes count M₀ M interp)
    (hsame : withGuards M interp = withGuards M₀ interp) :
    RunsWithGuardsTimes (count + orders.length) M₀ M' interp := by
  induction orders generalizing M count with
  | nil =>
      obtain rfl : M = M' := Option.some.inj hruns
      exact hfirst
  | cons order rest ih =>
      obtain ⟨M₁, hpass, hrest⟩ := Option.bind_eq_some_iff.mp hruns
      obtain ⟨before, hinst⟩ := runOnModule_instrumented hpass
      have hnext := hinst.runsWithGuards hexternal hinert
      rw [List.length_cons, ← Nat.add_assoc, Nat.add_right_comm]
      exact ih hrest ((hinst.definition?_eq_none_iff _).mpr hexternal) (hfirst.succ hnext hsame)
        ((hinst.withGuards_eq interp).trans hsame)

theorem runPasses_total (orders : List (IterationOrder × IterationOrder)) {M : Module}
    (hwalks : M.WalksEnd) :
    ∃ bound, ∀ fuel, bound ≤ fuel → ∃ M', runPasses fuel orders M = some M' := by
  induction orders generalizing M with
  | nil => exact ⟨0, fun _ _ => ⟨M, rfl⟩⟩
  | cons order rest ih =>
      obtain ⟨first, hfirst⟩ := runOnModule_total order.1 order.2 hwalks
      obtain ⟨M₁, hpass⟩ := hfirst first le_rfl
      obtain ⟨before, hinst⟩ := runOnModule_instrumented hpass
      obtain ⟨second, hsecond⟩ := ih (hinst.walksEnd_again_iff.mpr hwalks)
      refine ⟨max first second, fun fuel hfuel => ?_⟩
      obtain ⟨M', hrest⟩ := hsecond fuel (by omega)
      exact ⟨M', Option.bind_eq_some_iff.mpr ⟨M₁, runOnModule_mono (by omega) hpass, hrest⟩⟩

/-- However often the pass is applied, it gets through, and every access that is not
exempt is guarded as often, by calls with its pointer and its kind. -/
theorem runPasses_guards (orders : List (IterationOrder × IterationOrder)) {M : Module}
    (hwalks : M.WalksEnd) (hexternal : M.definition? "texas_guard" = none) :
    ∃ bound, ∀ fuel, bound ≤ fuel → ∃ M', runPasses fuel orders M = some M' ∧
      ∀ {Val World : Type} (interp : Interp Val World), GuardInert interp →
        RunsWithGuardsTimes orders.length M M' interp := by
  obtain ⟨bound, hbound⟩ := runPasses_total orders hwalks
  refine ⟨bound, fun fuel hfuel => ?_⟩
  obtain ⟨M', hruns⟩ := hbound fuel hfuel
  refine ⟨M', hruns, fun interp hinert => ?_⟩
  have htimes := runPasses_runs hruns hexternal hinert (runsWithGuardsTimes_zero M interp) rfl
  rwa [Nat.zero_add] at htimes

theorem runPasses_guards_clientModule :
    ∃ bound, ∀ fuel, bound ≤ fuel →
      ∃ M', runPasses fuel [(.inOrder, .inOrder), (.inOrder, .inOrder)] clientModule = some M' ∧
        ∀ {Val World : Type} (interp : Interp Val World), GuardInert interp →
          RunsWithGuardsTimes 2 clientModule M' interp :=
  runPasses_guards [(.inOrder, .inOrder), (.inOrder, .inOrder)] (.of_fuel 3 (by decide))
    (by decide)

end Carat

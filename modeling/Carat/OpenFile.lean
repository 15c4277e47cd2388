import Carat.WriteOutcomes

/-!
# One open file

Reads and writes of `/proc/policydev` share the file's position.  Both refuse to
do anything at a positive position, and both move it only when they succeed: a
write by the length of a text that starts with a number, a read by the length of
the policy.  From position zero a file therefore takes one effect, and whatever
comes before or after it leaves no trace.
-/

namespace Carat

open SteeredTree

/-- The file's position, and the global that its calls act on. -/
structure OpenFile where
  ppos : ℤ
  testPolicy : Policy
  deriving DecidableEq, Repr

inductive FileCall where
  | write (call : WriteCall)
  | read (call : ReadCall)

/-- A call that has returned; `text` is what it has handed to its reader. -/
structure FileStep where
  call : FileCall
  before : OpenFile
  ret : ℤ
  text : List Char
  after : OpenFile

def FileCall.run (kernel : KernelRbtree) (fuel : ℕ) (file : OpenFile) :
    FileCall → Outcome FileStep
  | .write call =>
      (inputPolicy kernel fuel call file.ppos file.testPolicy).bind fun result =>
        .returns ⟨.write call, file, result.ret, [], ⟨result.ppos, result.testPolicy⟩⟩
  | .read call =>
      (outputPolicy file.testPolicy call file.ppos).bind fun result =>
        .returns ⟨.read call, file, result.ret, result.text, ⟨result.ppos, file.testPolicy⟩⟩

def runFile (kernel : KernelRbtree) (fuel : ℕ) :
    OpenFile → List FileCall → Outcome (List FileStep)
  | _, [] => .returns []
  | file, call :: rest =>
      (call.run kernel fuel file).bind fun step =>
        (runFile kernel fuel step.after rest).bind fun steps => .returns (step :: steps)

/-- What a call answers once the position is positive. -/
def FileCall.refusal : FileCall → ℤ
  | .write _ => -efault
  | .read _ => 0

/-- If the call gets as far as the list, the list is finite and there is memory for
its records. -/
def FileCall.Orderly : FileCall → Prop
  | .write call =>
      call.count ≤ bufSize → call.copyFails = false →
        ∀ list, sscanfLd call.buf = some list →
          ∃ nodes, ListAt call.memory list nodes ∧
            ∀ allocs, allocs ≤ nodes.length → call.kmalloc allocs = true
  | .read _ => True

namespace FileStep

/-- The policy that the call has put in place. -/
def installed? (step : FileStep) : Option Policy :=
  match step.call with
  | .write _ => if 0 < step.ret then some step.after.testPolicy else none
  | .read _ => none

structure Quiet (step : FileStep) : Prop where
  ret : step.ret ≤ 0
  same : step.after = step.before
  text : step.text = []

structure Refused (step : FileStep) : Prop where
  ret : step.ret = step.call.refusal
  same : step.after = step.before
  text : step.text = []

/-- The call has moved the position: it has installed a policy, or has read all of
the old one. -/
structure Effective (text : List Char) (step : FileStep) : Prop where
  ret : 0 < step.ret
  position : 0 < step.after.ppos
  policy : step.installed? = none → step.after.testPolicy = step.before.testPolicy
  text : step.text = [] ∨ step.text = text

theorem Refused.quiet {step : FileStep} (hrefused : step.Refused) : step.Quiet where
  ret := by
    rw [hrefused.ret]
    cases step.call <;> simp [FileCall.refusal, efault]
  same := hrefused.same
  text := hrefused.text

theorem Quiet.installed?_eq_none {step : FileStep} (hquiet : step.Quiet) :
    step.installed? = none := by
  unfold installed?
  cases step.call with
  | write call => exact if_neg (not_lt.mpr hquiet.ret)
  | read call => rfl

end FileStep

/-- A file that nothing has moved yet, over a policy that is there and fits. -/
structure OpenFile.Ready (file : OpenFile) (regionMap : RbTree MemoryRegion) : Prop where
  position : file.ppos = 0
  published : file.testPolicy.regionMap = some regionMap
  renders : RendersIn regionMap

section Calls

variable (kernel : KernelRbtree)

theorem FileCall.run_refused {file : OpenFile} (hposition : 0 < file.ppos) (fuel : ℕ)
    (call : FileCall) :
    call.run kernel fuel file = .returns ⟨call, file, call.refusal, [], file⟩ := by
  cases call with
  | write call => simp [run, inputPolicy_turnedAway kernel (Or.inl hposition), refusal]
  | read call => simp [run, outputPolicy, hposition, refusal]

theorem FileCall.run_write {call : WriteCall} (horderly : (FileCall.write call).Orderly)
    (file : OpenFile) (text : List Char) :
    ∃ bound step,
      (∀ fuel, bound ≤ fuel → (FileCall.write call).run kernel fuel file = .returns step) ∧
        step.call = .write call ∧ step.before = file ∧ (step.Quiet ∨ step.Effective text) := by
  by_cases haway : call.TurnedAway file.ppos
  · refine ⟨0, ⟨.write call, file, -efault, [], file⟩, ?_, rfl, rfl, ?_⟩
    · intro fuel _
      simp [run, inputPolicy_turnedAway kernel haway]
    · exact Or.inl ⟨by simp [efault], rfl, rfl⟩
  · obtain ⟨_, hcount, hcopy, list, hlist⟩ := WriteCall.not_turnedAway_iff.mp haway
    obtain ⟨nodes, hnodes, hkmalloc⟩ := horderly hcount hcopy list hlist
    have hdelivers : call.Delivers file.ppos nodes :=
      WriteCall.delivers_of_not_turnedAway haway ⟨list, hlist, hnodes⟩ hkmalloc
    refine ⟨nodes.length, ⟨.write call, file, strlen call.buf, [],
      ⟨strlen call.buf, publishedPolicy kernel nodes⟩⟩, ?_, rfl, rfl, ?_⟩
    · intro fuel hfuel
      simp [run, inputPolicy_publishes kernel hdelivers hfuel]
    · have hpositive := hdelivers.success
      refine Or.inr ⟨hpositive, hpositive, ?_, Or.inl rfl⟩
      intro hnone
      have hsome : FileStep.installed? ⟨.write call, file, strlen call.buf, [],
          ⟨strlen call.buf, publishedPolicy kernel nodes⟩⟩ = some (publishedPolicy kernel nodes) :=
        if_pos hpositive
      rw [hsome] at hnone
      simp at hnone

theorem FileCall.run_read {file : OpenFile} {regionMap : RbTree MemoryRegion}
    (hready : file.Ready regionMap) (call : ReadCall) :
    ∃ step, (∀ fuel, (FileCall.read call).run kernel fuel file = .returns step) ∧
      step.call = .read call ∧ step.before = file ∧
      (step.Quiet ∨ step.Effective (outputText 0 regionMap.inorder)) := by
  obtain ⟨ppos, testPolicy⟩ := file
  obtain ⟨rfl, hpublished, hrenders⟩ := hready
  replace hpublished : testPolicy.regionMap = some regionMap := hpublished
  by_cases hshort : call.count < bufSize
  · refine ⟨⟨.read call, ⟨0, testPolicy⟩, 0, [], ⟨0, testPolicy⟩⟩, ?_, rfl, rfl, ?_⟩
    · simp [run, outputPolicy, hshort]
    · exact Or.inl ⟨le_rfl, rfl, rfl⟩
  · have hloop : outputLoop 0 [] regionMap.inorder =
        .returns (outputText 0 regionMap.inorder) := by
      rw [outputLoop_start, if_pos hrenders]
    cases hcopy : call.copyFails with
    | true =>
        refine ⟨⟨.read call, ⟨0, testPolicy⟩, -efault, [], ⟨0, testPolicy⟩⟩, ?_, rfl, rfl, ?_⟩
        · simp [run, outputPolicy, hshort, hpublished, hloop, hcopy]
        · exact Or.inl ⟨by simp [efault], rfl, rfl⟩
    | false =>
        refine ⟨⟨.read call, ⟨0, testPolicy⟩, (outputText 0 regionMap.inorder).length,
          outputText 0 regionMap.inorder,
          ⟨(outputText 0 regionMap.inorder).length, testPolicy⟩⟩, ?_, rfl, rfl, ?_⟩
        · simp [run, outputPolicy, hshort, hpublished, hloop, hcopy]
        · -- an empty policy has an empty text, which moves nothing
          rcases (outputText 0 regionMap.inorder).length.eq_zero_or_pos with hzero | hpositive
          · left
            have hempty := List.length_eq_zero_iff.mp hzero
            exact ⟨by simp [hempty], by simp [hempty], hempty⟩
          · right
            have hpositive' := Int.natCast_pos.mpr hpositive
            exact ⟨hpositive', hpositive', fun _ => rfl, Or.inr rfl⟩

/-- One call on a file that nothing has moved yet. -/
theorem FileCall.run_ready {file : OpenFile} {regionMap : RbTree MemoryRegion}
    (hready : file.Ready regionMap) {call : FileCall} (horderly : call.Orderly) :
    ∃ bound step, (∀ fuel, bound ≤ fuel → call.run kernel fuel file = .returns step) ∧
      step.call = call ∧ step.before = file ∧
      (step.Quiet ∨ step.Effective (outputText 0 regionMap.inorder)) := by
  cases call with
  | write call => exact run_write kernel horderly file _
  | read call =>
      obtain ⟨step, hrun, hstep⟩ := run_read kernel hready call
      exact ⟨0, step, fun fuel _ => hrun fuel, hstep⟩

end Calls

/-! ## Runs -/

/-- Calls without a trace, then at most one with an effect, then refusals. -/
inductive OneShot (text : List Char) : List FileStep → Prop where
  | nil : OneShot text []
  | quiet {step : FileStep} {rest : List FileStep} :
      step.Quiet → OneShot text rest → OneShot text (step :: rest)
  | effect {step : FileStep} {rest : List FileStep} :
      step.Effective text → (∀ later ∈ rest, later.Refused) → OneShot text (step :: rest)

section Runs

variable (kernel : KernelRbtree)

theorem runFile_refused {file : OpenFile} (hposition : 0 < file.ppos) (calls : List FileCall) :
    ∃ steps, (∀ fuel, runFile kernel fuel file calls = .returns steps) ∧
      steps.map FileStep.call = calls ∧ ∀ step ∈ steps, step.Refused := by
  induction calls with
  | nil => exact ⟨[], fun _ => rfl, rfl, by simp⟩
  | cons call rest ih =>
      obtain ⟨steps, hrun, hcalls, hrefused⟩ := ih
      refine ⟨⟨call, file, call.refusal, [], file⟩ :: steps, ?_, ?_, ?_⟩
      · intro fuel
        simp [runFile, FileCall.run_refused kernel hposition, hrun]
      · simp [hcalls]
      · exact List.forall_mem_cons.mpr ⟨⟨rfl, rfl, rfl⟩, hrefused⟩

theorem runFile_oneShot {file : OpenFile} {regionMap : RbTree MemoryRegion}
    (hready : file.Ready regionMap) {calls : List FileCall}
    (horderly : ∀ call ∈ calls, call.Orderly) :
    ∃ bound steps, (∀ fuel, bound ≤ fuel → runFile kernel fuel file calls = .returns steps) ∧
      steps.map FileStep.call = calls ∧ OneShot (outputText 0 regionMap.inorder) steps := by
  induction calls with
  | nil => exact ⟨0, [], fun _ _ => rfl, rfl, .nil⟩
  | cons call rest ih =>
      obtain ⟨hcall, hrest⟩ := List.forall_mem_cons.mp horderly
      obtain ⟨bound, step, hrun, rfl, hbefore, hstep⟩ := FileCall.run_ready kernel hready hcall
      rcases hstep with hquiet | heffective
      · have hsame : step.after = file := hquiet.same.trans hbefore
        obtain ⟨bound', steps, hrun', hcalls, hshot⟩ := ih hrest
        refine ⟨max bound bound', step :: steps, ?_, ?_, .quiet hquiet hshot⟩
        · intro fuel hfuel
          obtain ⟨hfuel, hfuel'⟩ := max_le_iff.mp hfuel
          simp [runFile, hrun fuel hfuel, hsame, hrun' fuel hfuel']
        · simp [hcalls]
      · obtain ⟨steps, hrun', hcalls, hrefused⟩ :=
          runFile_refused kernel heffective.position rest
        refine ⟨bound, step :: steps, ?_, ?_, .effect heffective hrefused⟩
        · intro fuel hfuel
          simp [runFile, hrun fuel hfuel, hrun']
        · simp [hcalls]

end Runs

namespace OneShot

variable {text : List Char} {steps : List FileStep} (hshot : OneShot text steps)

include hshot

theorem unchanged : ∀ step ∈ steps, step.ret ≤ 0 → step.after = step.before := by
  induction hshot with
  | nil => simp
  | quiet hquiet _ ih => exact List.forall_mem_cons.mpr ⟨fun _ => hquiet.same, ih⟩
  | effect heffective hrefused =>
      refine List.forall_mem_cons.mpr ⟨?_, fun later hlater _ => (hrefused later hlater).same⟩
      intro hret
      exact absurd heffective.ret (not_lt.mpr hret)

theorem countP_positive_le : steps.countP (fun step => 0 < step.ret) ≤ 1 := by
  induction hshot with
  | nil => simp
  | quiet hquiet _ ih =>
      rw [List.countP_cons_of_neg (by simpa using hquiet.ret)]
      exact ih
  | @effect step rest heffective hrefused =>
      have hnone : rest.countP (fun step => 0 < step.ret) = 0 := by
        apply List.countP_eq_zero.mpr
        intro later hlater
        simpa using (hrefused later hlater).quiet.ret
      rw [List.countP_cons, hnone]
      split <;> simp

theorem refused_after {done rest : List FileStep} {step : FileStep}
    (hsplit : steps = done ++ step :: rest) (hret : 0 < step.ret) :
    ∀ later ∈ rest, later.ret = later.call.refusal := by
  induction hshot generalizing done with
  | nil => simp at hsplit
  | quiet hquiet _ ih =>
      cases done with
      | nil =>
          obtain ⟨rfl, rfl⟩ := List.cons.inj hsplit
          exact absurd hret (not_lt.mpr hquiet.ret)
      | cons head done => exact ih (List.cons.inj hsplit).2
  | effect heffective hrefused =>
      have hsub : ∀ later ∈ rest, later.Refused := by
        intro later hlater
        apply hrefused
        cases done with
        | nil =>
            obtain ⟨_, rfl⟩ := List.cons.inj hsplit
            exact hlater
        | cons head done =>
            rw [(List.cons.inj hsplit).2]
            simp [hlater]
      exact fun later hlater => (hsub later hlater).ret

theorem installed_length_le : (steps.filterMap FileStep.installed?).length ≤ 1 := by
  induction hshot with
  | nil => simp
  | quiet hquiet _ ih => rwa [List.filterMap_cons_none hquiet.installed?_eq_none]
  | @effect step rest heffective hrefused =>
      have hnone : rest.filterMap FileStep.installed? = [] := by
        rw [List.filterMap_eq_nil_iff]
        exact fun later hlater => (hrefused later hlater).quiet.installed?_eq_none
      cases hinstalled : step.installed? <;> simp [hinstalled, hnone]

theorem policy_kept :
    ∀ step ∈ steps, step.installed? = none → step.after.testPolicy = step.before.testPolicy := by
  induction hshot with
  | nil => simp
  | quiet hquiet _ ih =>
      exact List.forall_mem_cons.mpr ⟨fun _ => congrArg OpenFile.testPolicy hquiet.same, ih⟩
  | effect heffective hrefused =>
      exact List.forall_mem_cons.mpr ⟨heffective.policy, fun later hlater _ =>
        congrArg OpenFile.testPolicy (hrefused later hlater).same⟩

theorem text_whole :
    steps.flatMap FileStep.text = [] ∨ steps.flatMap FileStep.text = text := by
  induction hshot with
  | nil => exact Or.inl rfl
  | quiet hquiet _ ih => simpa [hquiet.text] using ih
  | @effect step rest heffective hrefused =>
      have hnone : rest.flatMap FileStep.text = [] :=
        List.flatMap_eq_nil_iff.mpr fun later hlater => (hrefused later hlater).text
      simpa [hnone] using heffective.text

end OneShot

/-- What one open file does over a run of calls. -/
structure OneEffect (text : List Char) (steps : List FileStep) : Prop where
  unchanged : ∀ step ∈ steps, step.ret ≤ 0 → step.after = step.before
  atMostOne : steps.countP (fun step => 0 < step.ret) ≤ 1
  refused : ∀ done step rest, steps = done ++ step :: rest → 0 < step.ret →
    ∀ later ∈ rest, later.ret = later.call.refusal
  installed : (steps.filterMap FileStep.installed?).length ≤ 1
  policy : ∀ step ∈ steps, step.installed? = none →
    step.after.testPolicy = step.before.testPolicy
  text : steps.flatMap FileStep.text = [] ∨ steps.flatMap FileStep.text = text

/-- From position zero and a published policy, every run of orderly calls returns
and has at most one effect. -/
theorem runFile_oneEffect (kernel : KernelRbtree) {file : OpenFile}
    {regionMap : RbTree MemoryRegion} (hready : file.Ready regionMap) {calls : List FileCall}
    (horderly : ∀ call ∈ calls, call.Orderly) :
    ∃ bound steps, (∀ fuel, bound ≤ fuel → runFile kernel fuel file calls = .returns steps) ∧
      steps.map FileStep.call = calls ∧ OneEffect (outputText 0 regionMap.inorder) steps := by
  obtain ⟨bound, steps, hrun, hcalls, hshot⟩ := runFile_oneShot kernel hready horderly
  exact ⟨bound, steps, hrun, hcalls,
    { unchanged := hshot.unchanged
      atMostOne := hshot.countP_positive_le
      refused := fun _ _ _ hsplit hret => hshot.refused_after hsplit hret
      installed := hshot.installed_length_le
      policy := hshot.policy_kept
      text := hshot.text_whole }⟩

/-- A short read, a write, a read and another write. -/
theorem runFile_oneEffect_writeOnce :
    ∃ bound steps, (∀ fuel, bound ≤ fuel →
      runFile bottomUpRbtree fuel ⟨0, publishedPolicy bottomUpRbtree [⟨0, -1, 5⟩]⟩
        [.read ⟨10, false⟩, .write (writeOf multiNodePolicy), .read ⟨1000, false⟩,
          .write (writeOf [])] = .returns steps) ∧
      steps.countP (fun step => 0 < step.ret) ≤ 1 := by
  have hready : OpenFile.Ready ⟨0, publishedPolicy bottomUpRbtree [⟨0, -1, 5⟩]⟩
      (listToTree bottomUpRbtree .nil [⟨0, -1, 5⟩]) :=
    ⟨rfl, rfl, by decide⟩
  have hwrite : ∀ nodes : List PolicyNode, nodes.length < 2 ^ 32 →
      (FileCall.write (writeOf nodes)).Orderly :=
    fun nodes hlength _ _ list hparse =>
      ⟨nodes, writeOf_lists hlength list hparse, fun _ _ => rfl⟩
  have horderly : ∀ call ∈ [FileCall.read ⟨10, false⟩, .write (writeOf multiNodePolicy),
      .read ⟨1000, false⟩, .write (writeOf [])], call.Orderly := by
    simp only [List.forall_mem_cons]
    exact ⟨trivial, hwrite _ (by decide), trivial, hwrite _ (by decide), by simp⟩
  obtain ⟨bound, steps, hrun, _, heffect⟩ := runFile_oneEffect bottomUpRbtree hready horderly
  exact ⟨bound, steps, hrun, heffect.atMostOne⟩

end Carat

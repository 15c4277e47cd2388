import Carat.DeviceFiles
import Carat.RegisterRuns

/-!
# Calls one after another

The device runs every call to its end before the next one.  On shared memory a call
is many steps, and other calls may come between them.  When none does, both can show
exactly the same: the histories of lists put in place, guards and reads of the one
are those of the other.

In between stands the module in which a call is the answer of its function to the
policy in force.
-/

namespace Carat

open SteeredTree LabelledRun

/-- A call of the module that has succeeded, and what came of it. -/
inductive SerialCall where
  | input (list : List PolicyNode)
  | guard (ptr : BitVec 64) (flags : BitVec 32) (outcome : GuardOutcome)
  | output (call : ReadCall) (text : List Char)

/-- Some write can deliver the list, and the text is not empty. -/
def SerialCall.Feasible : SerialCall → Prop
  | .input list => ∃ write : WriteCall, write.Delivers 0 list
  | .guard _ _ _ => True
  | .output _ text => text ≠ []

/-! ## Three ways to make calls -/

/-- What a call of a file comes to. -/
inductive FileCall.Shows (ret : ℤ) (text : List Char) : FileCall → List SerialCall → Prop where
  | fails {call : FileCall} : ret ≤ 0 → Shows ret text call []
  | input {call : WriteCall} {list : List PolicyNode} :
      0 < ret → call.Delivers 0 list → Shows ret text (.write call) [.input list]
  | output {call : ReadCall} : 0 < ret → Shows ret text (.read call) [.output call text]

/-- The successful calls that an event stands for.  The module stays loaded. -/
inductive DeviceEvent.Shows : DeviceEvent → List SerialCall → Prop where
  | opened {file : ℕ} : Shows (.opened file) []
  | closed {file : ℕ} : Shows (.closed file) []
  | sought {file : ℕ} {position : ℤ} : Shows (.sought file position) []
  | called {file : ℕ} {call : FileCall} {ret : ℤ} {text : List Char} {calls : List SerialCall} :
      call.Shows ret text calls → Shows (.called file call ret text) calls
  | calledAt {file : ℕ} {position : ℤ} {call : FileCall} {ret : ℤ} {text : List Char}
      {calls : List SerialCall} :
      call.Shows ret text calls → Shows (.calledAt file position call ret text) calls
  | guard {ptr : BitVec 64} {flags : BitVec 32} {outcome : GuardOutcome} :
      Shows (.guarded ptr flags outcome) [.guard ptr flags outcome]

/-- A step of the device, seen as the calls that succeed in it. -/
def ServesStep (kernel : KernelRbtree) (device : PolicyDevice) (calls : List SerialCall)
    (next : PolicyDevice) : Prop :=
  ∃ event, DeviceStep kernel device [event] next ∧ event.Shows calls

/-- What `test_init` leaves behind, with a policy in force: no file is open. -/
def PolicyDevice.idle (testPolicy : Policy) : PolicyDevice where
  loaded := true
  ent := true
  testPolicy := testPolicy
  files := fun _ => none

/-- The call is one step: its function, applied to the policy in force. -/
inductive SerialStep (kernel : KernelRbtree) : Policy → List SerialCall → Policy → Prop where
  | input {testPolicy : Policy} (list : List PolicyNode) :
      SerialStep kernel testPolicy [.input list] (publishedPolicy kernel list)
  | guard {testPolicy : Policy} {ptr : BitVec 64} {flags : BitVec 32} {outcome : GuardOutcome} :
      texasGuard testPolicy ptr flags = .returns outcome →
        SerialStep kernel testPolicy [.guard ptr flags outcome] testPolicy
  | output {testPolicy : Policy} {call : ReadCall} {text : List Char} :
      outputPolicy testPolicy call 0 = .returns ⟨text.length, text.length, text⟩ → text ≠ [] →
        SerialStep kernel testPolicy [.output call text] testPolicy

/-- What a call shows on shared memory when it is thread `i`. -/
def SerialCall.events (i : ℕ) : SerialCall → List PolicyEvent
  | .input list => [.publish list]
  | .guard ptr flags outcome => [.guardReads i ptr flags, .guardEnds i outcome]
  | .output call text =>
      [.outputReads i call 0, .outputEnds i ⟨text.length, text.length, text⟩]

/-- The calls of a history, one thread each. -/
def serialEvents (history : List SerialCall) : List PolicyEvent :=
  history.zipIdx.flatMap fun entry => entry.1.events entry.2

theorem serialEvents_concat (history : List SerialCall) (call : SerialCall) :
    serialEvents (history ++ [call]) = serialEvents history ++ call.events history.length := by
  simp [serialEvents, List.zipIdx_append]

/-! ## The device -/

section Device

variable {kernel : KernelRbtree} {testPolicy testPolicy' : Policy} {calls : List SerialCall}

theorem WriteCall.Delivers.unique {write : WriteCall} {ppos ppos' : ℤ}
    {list list' : List PolicyNode} (hdelivers : write.Delivers ppos list)
    (hdelivers' : write.Delivers ppos' list') : list = list' := by
  obtain ⟨address, hparsed, hlist⟩ := hdelivers.parsed
  obtain ⟨address', hparsed', hlist'⟩ := hdelivers'.parsed
  obtain rfl := Option.some.inj (hparsed.symm.trans hparsed')
  exact hlist.unique hlist'

/-- A call of a file is what its function answers, or has no effect. -/
theorem FileCall.Shows.serial {call : FileCall} {fuel : ℕ} {ppos : ℤ} {step : FileStep}
    (hshows : call.Shows step.ret step.text calls) (hppos : 0 ≤ ppos)
    (hrun : call.run kernel fuel ⟨ppos, testPolicy⟩ = .returns step) :
    Run (SerialStep kernel) testPolicy calls step.after.testPolicy ∧
      ∀ call ∈ calls, call.Feasible := by
  have hreturns := FileCall.returns_of_run hppos hrun
  cases hshows with
  | fails hret =>
      rw [(hreturns.of_ret_le hret).1]
      exact ⟨.nil, by simp⟩
  | input hret hdelivers =>
      generalize step.ret = ret, step.text = text, step.after = after at hreturns hret
      cases hreturns with
      | fails hnonpos => omega
      | writes hdelivers' =>
          obtain rfl := hdelivers.unique hdelivers'
          exact ⟨.single (.input _), by simpa [SerialCall.Feasible] using ⟨_, hdelivers⟩⟩
  | output hret =>
      obtain ⟨result, houtput, hstep⟩ := Outcome.exists_of_bind hrun
      obtain rfl := Outcome.returns.inj hstep
      rcases outputPolicy_cases hppos houtput with ⟨hnonpos, _⟩ | ⟨rfl, hresult, hne, _⟩
      · exact absurd hret (not_lt.mpr hnonpos)
      · rw [hresult] at houtput
        exact ⟨.single (.output houtput hne), by simpa [SerialCall.Feasible] using hne⟩

theorem DeviceStep.serial {device next : PolicyDevice} {event : DeviceEvent}
    (hstep : DeviceStep kernel device [event] next) (hshows : event.Shows calls)
    (hfiles : ∀ file ppos, device.files file = some ppos → 0 ≤ ppos) :
    Run (SerialStep kernel) device.testPolicy calls next.testPolicy ∧
      ∀ call ∈ calls, call.Feasible := by
  have hquiet : Run (SerialStep kernel) device.testPolicy [] device.testPolicy ∧
      ∀ call ∈ ([] : List SerialCall), call.Feasible := ⟨.nil, by simp⟩
  cases hstep with
  | testInit _ _ => cases hshows
  | testExit _ => cases hshows
  | opens _ _ =>
      cases hshows
      exact hquiet
  | closes _ =>
      cases hshows
      exact hquiet
  | seeks _ _ =>
      cases hshows
      exact hquiet
  | guards _ hguard =>
      cases hshows
      exact ⟨.single (.guard hguard), by simp [SerialCall.Feasible]⟩
  | calls hfile hrun =>
      cases hshows with
      | called hcall => exact hcall.serial (hfiles _ _ hfile) hrun
  | callsAt _ hposition hrun =>
      cases hshows with
      | calledAt hcall => exact hcall.serial hposition hrun

theorem PolicyDevice.move_move (device : PolicyDevice) (file : ℕ) (first second : Option ℤ) :
    (device.move file first).move file second = device.move file second := by
  simp [move]

theorem PolicyDevice.idle_move_move (file : ℕ) (first second : Option ℤ) :
    ({ (PolicyDevice.idle testPolicy).move file first with
      testPolicy := testPolicy' } : PolicyDevice).move file second =
        (PolicyDevice.idle testPolicy').move file second := by
  simp [move, idle]

theorem run_of_serves {history : List SerialCall} {device : PolicyDevice}
    (hrun : Run (ServesStep kernel) (.idle initialPolicy) history device) :
    ∃ trace, Run (DeviceStep kernel) PolicyDevice.initial trace device := by
  induction hrun with
  | nil => exact ⟨_, .single (.testInit true rfl)⟩
  | snoc _ hstep ih =>
      obtain ⟨trace, hbefore⟩ := ih
      obtain ⟨event, hstep, _⟩ := hstep
      exact ⟨_, hbefore.snoc hstep⟩

/-- What the device serves, its functions answer. -/
theorem serial_of_serves {history : List SerialCall} {device : PolicyDevice}
    (hrun : Run (ServesStep kernel) (.idle initialPolicy) history device) :
    Run (SerialStep kernel) initialPolicy history device.testPolicy ∧
      ∀ call ∈ history, call.Feasible := by
  induction hrun with
  | nil => exact ⟨.nil, by simp⟩
  | snoc hbefore hstep ih =>
      obtain ⟨hserial, hfeasible⟩ := ih
      obtain ⟨trace, hdevice⟩ := run_of_serves hbefore
      obtain ⟨hreflects, _⟩ := PolicyDevice.reflects_of_run hdevice
      obtain ⟨event, hstep, hshows⟩ := hstep
      obtain ⟨hlast, hfeasible'⟩ :=
        hstep.serial hshows fun file ppos hfile => (hreflects.files file ppos hfile).1
      exact ⟨hserial.trans hlast, List.forall_mem_append.mpr ⟨hfeasible, hfeasible'⟩⟩

/-- A file is opened for the call and closed after it. -/
theorem serves_call {call : FileCall} {fuel : ℕ} {step : FileStep}
    (hrun : call.run kernel fuel ⟨0, testPolicy⟩ = .returns step)
    (hshows : call.Shows step.ret step.text calls) :
    Run (ServesStep kernel) (.idle testPolicy) calls (.idle step.after.testPolicy) := by
  have hfile : ∀ (testPolicy : Policy) (ppos : ℤ),
      ((PolicyDevice.idle testPolicy).move 0 (some ppos)).files 0 = some ppos := fun _ _ => by
    rw [PolicyDevice.files_move, if_pos rfl]
  have hopens : ServesStep kernel (.idle testPolicy) []
      ((PolicyDevice.idle testPolicy).move 0 (some 0)) := ⟨_, .opens rfl rfl, .opened⟩
  have hcalls : ServesStep kernel ((PolicyDevice.idle testPolicy).move 0 (some 0)) calls
      ((PolicyDevice.idle step.after.testPolicy).move 0 (some step.after.ppos)) := by
    have hcalled := DeviceStep.calls (hfile testPolicy 0) hrun
    rw [PolicyDevice.idle_move_move] at hcalled
    exact ⟨_, hcalled, .called hshows⟩
  have hcloses : ServesStep kernel
      ((PolicyDevice.idle step.after.testPolicy).move 0 (some step.after.ppos)) []
      (.idle step.after.testPolicy) := by
    have hclosed := @DeviceStep.closes kernel _ _ _ (hfile step.after.testPolicy step.after.ppos)
    have hidle : (PolicyDevice.idle step.after.testPolicy).move 0 none =
        .idle step.after.testPolicy := PolicyDevice.move_self rfl
    rw [PolicyDevice.move_move, hidle] at hclosed
    exact ⟨_, hclosed, .closed⟩
  simpa using ((Run.single hopens).snoc hcalls).snoc hcloses

theorem SerialStep.serves (hstep : SerialStep kernel testPolicy calls testPolicy')
    (hfeasible : ∀ call ∈ calls, call.Feasible) :
    Run (ServesStep kernel) (.idle testPolicy) calls (.idle testPolicy') := by
  cases hstep with
  | input list =>
      obtain ⟨write, hdelivers⟩ := hfeasible _ (List.mem_singleton_self _)
      exact serves_call (FileCall.run_delivers kernel hdelivers testPolicy)
        (.input hdelivers.success hdelivers)
  | guard hguard => exact .single ⟨_, .guards rfl hguard, .guard⟩
  | @output call text houtput hne =>
      have hrun : (FileCall.read call).run kernel 0 ⟨0, testPolicy⟩ = .returns
          ⟨.read call, ⟨0, testPolicy⟩, text.length, text, ⟨text.length, testPolicy⟩⟩ := by
        simp [FileCall.run, houtput]
      exact serves_call hrun (.output (by simpa using List.length_pos_of_ne_nil hne))

theorem serves_of_serial {history : List SerialCall}
    (hrun : Run (SerialStep kernel) initialPolicy history testPolicy)
    (hfeasible : ∀ call ∈ history, call.Feasible) :
    Run (ServesStep kernel) (.idle initialPolicy) history (.idle testPolicy) := by
  induction hrun with
  | nil => exact .nil
  | snoc _ hstep ih =>
      obtain ⟨hbefore, hlast⟩ := List.forall_mem_append.mp hfeasible
      exact (ih hbefore).trans (hstep.serves hlast)

end Device

/-! ## Shared memory -/

section Memory

variable {kernel : KernelRbtree} {history : List SerialCall} {testPolicy : Policy}

/-- The policy that a register stands for. -/
def Register.policy (kernel : KernelRbtree) (current : Option (List PolicyNode)) : Policy :=
  current.elim initialPolicy (publishedPolicy kernel)

theorem Register.exists_current (kernel : KernelRbtree) {current : Option (List PolicyNode)}
    (hmap : (Register.policy kernel current).regionMap ≠ none) : ∃ list, current = some list := by
  cases current with
  | none => exact absurd rfl hmap
  | some list => exact ⟨list, rfl⟩

/-- A call that is settled and ends at once. -/
theorem register_answers {register : Register}
    (hrun : Run (RegisterStep kernel) Register.initial (serialEvents history) register)
    (hfree : ∀ i, history.length ≤ i → register.calls i = none) {read ends : PolicyEvent}
    {settled : Settled}
    (hreads : RegisterStep kernel register [read] (register.set history.length settled))
    (hends : RegisterStep kernel (register.set history.length settled) [ends]
      ((register.set history.length settled).set history.length none)) :
    ∃ register', Run (RegisterStep kernel) Register.initial
        (serialEvents history ++ [read, ends]) register' ∧
      register'.current = register.current ∧
      ∀ i, history.length + 1 ≤ i → register'.calls i = none := by
  refine ⟨(register.set history.length settled).set history.length none,
    by simpa using (hrun.snoc hreads).snoc hends, rfl, fun i hi => ?_⟩
  rw [Register.calls_set, if_neg (by omega), Register.calls_set, if_neg (by omega)]
  exact hfree i (by omega)

theorem register_of_serial (hrun : Run (SerialStep kernel) initialPolicy history testPolicy) :
    ∃ register, Run (RegisterStep kernel) Register.initial (serialEvents history) register ∧
      testPolicy = Register.policy kernel register.current ∧
      ∀ i, history.length ≤ i → register.calls i = none := by
  induction hrun with
  | nil => exact ⟨Register.initial, .nil, rfl, fun _ _ => rfl⟩
  | @snoc history calls testPolicy next _ hstep ih =>
      obtain ⟨register, hregister, rfl, hfree⟩ := ih
      have hfresh := hfree history.length le_rfl
      cases hstep with
      | input list =>
          rw [serialEvents_concat, List.length_append]
          exact ⟨_, hregister.snoc (.publish list), rfl, fun i hi => hfree i (by omega)⟩
      | @guard ptr flags outcome hguard =>
          obtain ⟨list, hcurrent⟩ : ∃ list, register.current = some list :=
            Register.exists_current kernel fun hnone => by simp [texasGuard, hnone] at hguard
          rw [hcurrent] at hguard
          obtain ⟨register', hrun', hsame, hfree'⟩ := register_answers hregister hfree
            (.guardReads ptr flags hfresh hcurrent)
            (.guardEnds (by rw [Register.calls_set, if_pos rfl, ← hguard]; rfl))
          rw [serialEvents_concat, List.length_append]
          exact ⟨register', hrun', by rw [hsame], hfree'⟩
      | @output call text houtput hne =>
          have hopen : ¬((0 : ℤ) > 0 ∨ call.count < bufSize) := by
            intro hclosed
            rw [outputPolicy, if_pos hclosed] at houtput
            simp_all
          obtain ⟨list, hcurrent⟩ : ∃ list, register.current = some list :=
            Register.exists_current kernel fun hnone => by
              rw [outputPolicy, if_neg hopen, hnone] at houtput
              cases houtput
          rw [hcurrent] at houtput
          obtain ⟨register', hrun', hsame, hfree'⟩ := register_answers hregister hfree
            (.outputReads call 0 hfresh hopen hcurrent)
            (.outputEnds (by rw [Register.calls_set, if_pos rfl, ← houtput]; rfl))
          rw [serialEvents_concat, List.length_append]
          exact ⟨register', hrun', by rw [hsame], hfree'⟩

/-- What shared memory shows of calls that do not overlap, the functions answer. -/
theorem serial_of_explained (hexplained : Explained (Justified kernel) (serialEvents history))
    (hfeasible : ∀ call ∈ history, call.Feasible) :
    Run (SerialStep kernel) initialPolicy history
      (Register.policy kernel (lastPublish (serialEvents history))) := by
  induction history using List.reverseRecOn with
  | nil => exact .nil
  | append_singleton history call ih =>
      rw [serialEvents_concat] at hexplained ⊢
      obtain ⟨hbefore, hcall⟩ := List.forall_mem_append.mp hfeasible
      have hserial := ih hexplained.of_append hbefore
      cases call with
      | input list =>
          rw [SerialCall.events, lastPublish_publish]
          exact hserial.snoc (.input list)
      | guard ptr flags outcome =>
          have hends : Justified kernel
              (serialEvents history ++ [.guardReads history.length ptr flags])
              (.guardEnds history.length outcome) :=
            hexplained _ _ [] (by simp [SerialCall.events])
          obtain ⟨ptr', flags', list, hreads, hguard⟩ := hends
          obtain ⟨hsame, hlast⟩ := hreads.of_snoc rfl rfl
          obtain ⟨_, rfl, rfl⟩ := PolicyEvent.guardReads.inj hsame
          rw [SerialCall.events, lastPublish_append (by simp), hlast]
          rw [hlast] at hserial
          exact hserial.snoc (.guard hguard)
      | output read text =>
          have hends : Justified kernel
              (serialEvents history ++ [.outputReads history.length read 0])
              (.outputEnds history.length ⟨text.length, text.length, text⟩) :=
            hexplained _ _ [] (by simp [SerialCall.events])
          obtain ⟨read', ppos, list, hreads, houtput⟩ := hends
          obtain ⟨hsame, hlast⟩ := hreads.of_snoc rfl rfl
          obtain ⟨_, rfl, rfl⟩ := PolicyEvent.outputReads.inj hsame
          rw [SerialCall.events, lastPublish_append (by simp), hlast]
          rw [hlast] at hserial
          exact hserial.snoc (.output houtput (hcall _ (List.mem_singleton_self _)))

end Memory

/-- **Calls that do not overlap.**  The device can serve a history exactly when its lists
and texts are such as a user can cause and the module on shared memory, with all its
single steps, can show it. -/
theorem serial_histories {kernel : KernelRbtree} (hkernel : kernel.KeepsOrder)
    (hshape : kernel.ShapeOnly) (history : List SerialCall) :
    (∃ device, Run (ServesStep kernel) (.idle initialPolicy) history device) ↔
      (∀ call ∈ history, call.Feasible) ∧
        ∃ system, Run (Step kernel) System.initial (serialEvents history) system := by
  constructor
  · rintro ⟨device, hrun⟩
    obtain ⟨hserial, hfeasible⟩ := serial_of_serves hrun
    obtain ⟨register, hregister, _, _⟩ := register_of_serial hserial
    obtain ⟨bound, hbound⟩ := exists_reader_bound (serialEvents history)
    obtain ⟨system, hleads⟩ := Register.exists_leads hkernel hshape hregister hbound
    exact ⟨hfeasible, system, hleads.run⟩
  · rintro ⟨hfeasible, system, hrun⟩
    have hserial := serial_of_explained (good_of_run hkernel hshape hrun).2 hfeasible
    exact ⟨_, serves_of_serial hserial hfeasible⟩

/-- Two lists, a guard under each and a read of the second. -/
def twoListHistory : List SerialCall :=
  [.input [⟨0x1000, 0x10, 1⟩], .guard 0x1008 1 .allowed, .input [⟨0x1000, 0x20, 0⟩],
    .guard 0x1008 1 .disallowed, .output ⟨1000, false⟩ (outputText 0 [⟨0x1000, 0x20, 0⟩])]

theorem serial_histories_twoLists :
    ∃ system,
      Run (Step bottomUpRbtree) System.initial (serialEvents twoListHistory) system := by
  have hread : outputPolicy (publishedPolicy bottomUpRbtree [⟨0x1000, 0x20, 0⟩]) ⟨1000, false⟩ 0 =
      .returns ⟨55, 55, outputText 0 [⟨0x1000, 0x20, 0⟩]⟩ := rfl
  have hserial : Run (SerialStep bottomUpRbtree) initialPolicy twoListHistory
      (publishedPolicy bottomUpRbtree [⟨0x1000, 0x20, 0⟩]) :=
    ((((Run.single (SerialStep.input _)).snoc (SerialStep.guard (by decide))).snoc
      (SerialStep.input _)).snoc (SerialStep.guard (by decide))).snoc
        (SerialStep.output hread (by decide))
  have hfeasible : ∀ call ∈ twoListHistory, call.Feasible := by
    simp only [twoListHistory, List.forall_mem_cons, SerialCall.Feasible]
    exact ⟨⟨_, writeOf_delivers (by decide)⟩, trivial, ⟨_, writeOf_delivers (by decide)⟩, trivial,
      by decide, by simp⟩
  obtain ⟨_, system, hrun⟩ :=
    (serial_histories bottomUpRbtree_keepsOrder bottomUpRbtree_shapeOnly _).mp
      ⟨_, serves_of_serial hserial hfeasible⟩
  exact ⟨system, hrun⟩

end Carat

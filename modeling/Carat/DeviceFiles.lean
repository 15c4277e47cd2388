import Carat.LabelledRun
import Carat.OpenFile

/-!
# The device from loading to unloading

`test_init` makes `/proc/policydev` and `test_exit` takes it away.  In between it
may be opened any number of times: every open file has a position of its own, all of
them act on the one `test_policy`, and the module may be loaded again later.  `myops`
says nothing of seeking, so a file may be sought in, and `pread` and `pwrite` may pass a
position of their own.

However the calls of the files are mixed, they succeed at position zero only, so an
opening is good for one success until somebody seeks back; and what a read shows and
what a guard decides is the list of the last write that succeeded since the module was
loaded.
-/

namespace Carat

open SteeredTree LabelledRun

inductive DeviceEvent where
  | loaded
  | unloaded
  | opened (file : ℕ)
  | closed (file : ℕ)
  | sought (file : ℕ) (position : ℤ)
  | called (file : ℕ) (call : FileCall) (ret : ℤ) (text : List Char)
  -- `pread` or `pwrite`, at a position that is not the file's.
  | calledAt (file : ℕ) (position : ℤ) (call : FileCall) (ret : ℤ) (text : List Char)
  | guarded (ptr : BitVec 64) (flags : BitVec 32) (outcome : GuardOutcome)

structure PolicyDevice where
  loaded : Bool
  -- `proc_create` has made the entry.
  ent : Bool
  testPolicy : Policy
  -- The positions of the open files.
  files : ℕ → Option ℤ

def PolicyDevice.initial : PolicyDevice where
  loaded := false
  ent := false
  testPolicy := initialPolicy
  files := fun _ => none

/-- The file is opened or closed, or its position changes. -/
def PolicyDevice.move (device : PolicyDevice) (file : ℕ) (position : Option ℤ) : PolicyDevice :=
  { device with files := Function.update device.files file position }

theorem PolicyDevice.files_move (device : PolicyDevice) (file : ℕ) (position : Option ℤ)
    (file' : ℕ) : (device.move file position).files file' =
      if file' = file then position else device.files file' := by
  simp [move, Function.update_apply]

theorem PolicyDevice.move_self {device : PolicyDevice} {file : ℕ} {position : Option ℤ}
    (hfile : device.files file = position) : device.move file position = device := by
  subst hfile
  simp [move]

/-- Every call runs to its end before the next one. -/
inductive DeviceStep (kernel : KernelRbtree) :
    PolicyDevice → List DeviceEvent → PolicyDevice → Prop where
  -- `test_init` returns 0 also when there is no entry.
  | testInit {device : PolicyDevice} (created : Bool) :
      device.loaded = false →
        DeviceStep kernel device [.loaded] ⟨true, created, initialPolicy, fun _ => none⟩
  -- `proc_remove` leaves no file that could still be used.
  | testExit {device : PolicyDevice} :
      device.loaded = true →
        DeviceStep kernel device [.unloaded] ⟨false, false, device.testPolicy, fun _ => none⟩
  | opens {device : PolicyDevice} {file : ℕ} :
      device.ent = true → device.files file = none →
        DeviceStep kernel device [.opened file] (device.move file (some 0))
  | closes {device : PolicyDevice} {file : ℕ} {ppos : ℤ} :
      device.files file = some ppos →
        DeviceStep kernel device [.closed file] (device.move file none)
  | calls {device : PolicyDevice} {file : ℕ} {ppos : ℤ} {fuel : ℕ} {call : FileCall}
      {step : FileStep} :
      device.files file = some ppos →
        call.run kernel fuel ⟨ppos, device.testPolicy⟩ = .returns step →
        DeviceStep kernel device [.called file call step.ret step.text]
          ({ device with testPolicy := step.after.testPolicy }.move file (some step.after.ppos))
  | seeks {device : PolicyDevice} {file : ℕ} {ppos position : ℤ} :
      device.files file = some ppos → 0 ≤ position →
        DeviceStep kernel device [.sought file position] (device.move file (some position))
  | callsAt {device : PolicyDevice} {file : ℕ} {ppos position : ℤ} {fuel : ℕ}
      {call : FileCall} {step : FileStep} :
      device.files file = some ppos → 0 ≤ position →
        call.run kernel fuel ⟨position, device.testPolicy⟩ = .returns step →
        DeviceStep kernel device [.calledAt file position call step.ret step.text]
          { device with testPolicy := step.after.testPolicy }
  | guards {device : PolicyDevice} {ptr : BitVec 64} {flags : BitVec 32}
      {outcome : GuardOutcome} :
      device.loaded = true → texasGuard device.testPolicy ptr flags = .returns outcome →
        DeviceStep kernel device [.guarded ptr flags outcome] device

/-! ## What the events say -/

/-- The write whose list is in force after a call. -/
def FileCall.inForce (ret : ℤ) (last : Option WriteCall) : FileCall → Option WriteCall
  | .write call => if 0 < ret then some call else last
  | .read _ => last

/-- The write whose list is in force. -/
def lastWrite (trace : List DeviceEvent) : Option WriteCall :=
  trace.foldl
    (fun last event =>
      match event with
      | .loaded => none
      | .called _ call ret _ => call.inForce ret last
      | .calledAt _ _ call ret _ => call.inForce ret last
      | _ => last)
    none

/-- A call through the file has succeeded since it was opened or sought back to its
start, or it has been sought away from there. -/
def spent (file : ℕ) (trace : List DeviceEvent) : Bool :=
  trace.foldl
    (fun used event =>
      match event with
      | .opened file' => used && file' != file
      | .sought file' position => if file' = file then decide (0 < position) else used
      | .called file' _ ret _ => used || (file' == file && decide (0 < ret))
      | _ => used)
    false

/-- Not a call that has failed. -/
def DeviceEvent.counts : DeviceEvent → Bool
  | .called _ _ ret _ => decide (0 < ret)
  | .calledAt _ _ _ ret _ => decide (0 < ret)
  | _ => true

/-- A call that has failed, or one at the start that has done what it should. -/
def CallJustified (kernel : KernelRbtree) (before : List DeviceEvent) (atStart : Prop) (ret : ℤ)
    (text : List Char) : FileCall → Prop
  | .write call =>
      ret = -efault ∨ atStart ∧ ret = strlen call.buf ∧ ∃ list, call.Delivers 0 list
  | .read _ =>
      (ret ≤ 0 ∧ text = []) ∨
        atStart ∧ ret = text.length ∧
          ∃ written list, lastWrite before = some written ∧ written.Delivers 0 list ∧
            text = outputText 0 (listToTree kernel .nil list).inorder

def DeviceJustified (kernel : KernelRbtree) (before : List DeviceEvent) : DeviceEvent → Prop
  | .called file call ret text =>
      CallJustified kernel before (spent file before = false) ret text call
  | .calledAt _ position call ret text =>
      CallJustified kernel before (position = 0) ret text call
  | .guarded ptr flags outcome =>
      ∃ written list, lastWrite before = some written ∧ written.Delivers 0 list ∧
        texasGuard (publishedPolicy kernel list) ptr flags = .returns outcome
  | _ => True

/-! ## One call -/

/-- A call that returns has failed, has put a list in place or has shown the policy that
is in place. -/
inductive FileCall.Returns (kernel : KernelRbtree) (file : OpenFile) :
    FileCall → ℤ → List Char → OpenFile → Prop where
  | fails {call : FileCall} {ret : ℤ} :
      ret ≤ 0 → (∀ write, call = .write write → ret = -efault) →
        Returns kernel file call ret [] file
  | writes {write : WriteCall} {list : List PolicyNode} :
      write.Delivers file.ppos list →
        Returns kernel file (.write write) (strlen write.buf) []
          ⟨strlen write.buf, publishedPolicy kernel list⟩
  | reads {read : ReadCall} {regionMap : RbTree MemoryRegion} {text : List Char} :
      file.ppos = 0 → file.testPolicy.regionMap = some regionMap →
        text = outputText 0 regionMap.inorder → text ≠ [] →
        Returns kernel file (.read read) text.length text ⟨text.length, file.testPolicy⟩

/-- A read that returns has shown nothing, or the whole text. -/
theorem outputPolicy_cases {testPolicy : Policy} {ppos : ℤ} (hppos : 0 ≤ ppos) {read : ReadCall}
    {result : ReadResult} (houtput : outputPolicy testPolicy read ppos = .returns result) :
    (result.ret ≤ 0 ∧ result.text = [] ∧ result.ppos = ppos) ∨
      ppos = 0 ∧ result = ⟨result.text.length, result.text.length, result.text⟩ ∧
        result.text ≠ [] ∧ ∃ regionMap, testPolicy.regionMap = some regionMap ∧
          result.text = outputText 0 regionMap.inorder := by
  unfold outputPolicy at houtput
  split at houtput
  next =>
    obtain rfl := Outcome.returns.inj houtput
    exact .inl ⟨le_rfl, rfl, rfl⟩
  next hopen =>
    obtain rfl : ppos = 0 := by omega
    cases hmap : testPolicy.regionMap with
    | none => simp [hmap] at houtput
    | some regionMap =>
        simp only [hmap] at houtput
        obtain ⟨text, hloop, hcopy⟩ := Outcome.exists_of_bind houtput
        have htext : text = outputText 0 regionMap.inorder := by
          rw [outputLoop_start] at hloop
          split at hloop
          · exact (Outcome.returns.inj hloop).symm
          · cases hloop
        split at hcopy <;> obtain rfl := Outcome.returns.inj hcopy
        · exact .inl ⟨by simp [efault], rfl, rfl⟩
        · by_cases hempty : text = []
          · exact .inl ⟨by simp [hempty], hempty, by simp [hempty]⟩
          · exact .inr ⟨rfl, rfl, hempty, regionMap, rfl, htext⟩

theorem FileCall.returns_of_read {kernel : KernelRbtree} {testPolicy : Policy} {ppos : ℤ}
    (hppos : 0 ≤ ppos) {read : ReadCall} {result : ReadResult}
    (houtput : outputPolicy testPolicy read ppos = .returns result) :
    FileCall.Returns kernel ⟨ppos, testPolicy⟩ (.read read) result.ret result.text
      ⟨result.ppos, testPolicy⟩ := by
  rcases outputPolicy_cases hppos houtput with
    ⟨hret, htext, hsame⟩ | ⟨hzero, hresult, hne, regionMap, hmap, htext⟩
  · rw [htext, hsame]
    exact .fails hret (by simp)
  · rw [hresult]
    exact .reads hzero hmap htext hne

theorem FileCall.returns_of_run {kernel : KernelRbtree} {fuel : ℕ} {file : OpenFile}
    (hppos : 0 ≤ file.ppos) {call : FileCall} {step : FileStep}
    (hrun : call.run kernel fuel file = .returns step) :
    call.Returns kernel file step.ret step.text step.after := by
  cases call with
  | write write =>
      obtain ⟨result, hinput, hstep⟩ := Outcome.exists_of_bind hrun
      obtain rfl := Outcome.returns.inj hstep
      rcases inputPolicy_cases hinput with ⟨_, rfl⟩ | ⟨nodes, hdelivers, _, rfl⟩
      · exact .fails (by simp [efault]) fun _ _ => rfl
      · exact .writes hdelivers
  | read read =>
      obtain ⟨result, houtput, hstep⟩ := Outcome.exists_of_bind hrun
      obtain rfl := Outcome.returns.inj hstep
      exact returns_of_read hppos houtput

theorem FileCall.run_delivers (kernel : KernelRbtree) {write : WriteCall}
    {list : List PolicyNode} (hdelivers : write.Delivers 0 list) (testPolicy : Policy) :
    (FileCall.write write).run kernel list.length ⟨0, testPolicy⟩ =
      .returns ⟨.write write, ⟨0, testPolicy⟩, strlen write.buf, [],
        ⟨strlen write.buf, publishedPolicy kernel list⟩⟩ := by
  simp [run, inputPolicy_publishes kernel hdelivers le_rfl]

theorem FileCall.Returns.of_ret_le {kernel : KernelRbtree} {file after : OpenFile}
    {call : FileCall} {ret : ℤ} {text : List Char}
    (hreturns : call.Returns kernel file ret text after) (hret : ret ≤ 0) :
    after = file ∧ text = [] := by
  cases hreturns with
  | fails => exact ⟨rfl, rfl⟩
  | writes hdelivers => exact absurd hdelivers.success (by omega)
  | reads _ _ _ hne => exact absurd hret (by simpa using hne)

/-! ## Runs -/

/-- The list of the last write is the policy, if there is one. -/
def InForce (kernel : KernelRbtree) (last : Option WriteCall) (testPolicy : Policy) : Prop :=
  testPolicy.regionMap = none ∨
    ∃ written list, last = some written ∧ written.Delivers 0 list ∧
      testPolicy = publishedPolicy kernel list

/-- The device after a trace. -/
structure PolicyDevice.Reflects (trace : List DeviceEvent) (kernel : KernelRbtree)
    (device : PolicyDevice) : Prop where
  policy : InForce kernel (lastWrite trace) device.testPolicy
  files : ∀ file ppos, device.files file = some ppos →
    0 ≤ ppos ∧ (spent file trace = true ↔ 0 < ppos)

section Runs

variable {kernel : KernelRbtree} {trace : List DeviceEvent} {device next : PolicyDevice}

theorem lastWrite_append (trace events : List DeviceEvent) :
    lastWrite (trace ++ events) = events.foldl
      (fun last event =>
        match event with
        | .loaded => none
        | .called _ call ret _ => call.inForce ret last
        | .calledAt _ _ call ret _ => call.inForce ret last
        | _ => last) (lastWrite trace) :=
  List.foldl_append ..

theorem spent_append (file : ℕ) (trace events : List DeviceEvent) :
    spent file (trace ++ events) = events.foldl
      (fun used event =>
        match event with
        | .opened file' => used && file' != file
        | .sought file' position => if file' = file then decide (0 < position) else used
        | .called file' _ ret _ => used || (file' == file && decide (0 < ret))
        | _ => used) (spent file trace) :=
  List.foldl_append ..

/-- At whatever position a call is made. -/
theorem FileCall.Returns.justified {testPolicy : Policy} {ppos : ℤ} {call : FileCall} {ret : ℤ}
    {text : List Char} {after : OpenFile}
    (hreturns : call.Returns kernel ⟨ppos, testPolicy⟩ ret text after) (hppos : 0 ≤ ppos)
    (hpolicy : InForce kernel (lastWrite trace) testPolicy) {atStart : Prop}
    (hstart : ppos = 0 → atStart) :
    CallJustified kernel trace atStart ret text call ∧
      InForce kernel (call.inForce ret (lastWrite trace)) after.testPolicy ∧
      0 ≤ after.ppos ∧ (0 < ppos ∨ 0 < ret ↔ 0 < after.ppos) := by
  cases hreturns with
  | fails hret hwrite =>
      have hposition : 0 < ppos ∨ 0 < ret ↔ 0 < ppos := by omega
      cases call with
      | write write =>
          have hlast : (FileCall.write write).inForce ret (lastWrite trace) = lastWrite trace :=
            if_neg (not_lt.mpr hret)
          rw [hlast]
          exact ⟨.inl (hwrite write rfl), hpolicy, hppos, hposition⟩
      | read read => exact ⟨.inl ⟨hret, rfl⟩, hpolicy, hppos, hposition⟩
  | @writes write list hdelivers =>
      obtain rfl : ppos = 0 := le_antisymm hdelivers.position hppos
      have hsuccess := hdelivers.success
      refine ⟨.inr ⟨hstart rfl, rfl, list, hdelivers⟩, .inr ⟨write, list, if_pos hsuccess,
        hdelivers, rfl⟩, hsuccess.le, fun _ => hsuccess, .inr⟩
  | @reads read regionMap text hzero hmap htext hne =>
      have hlength : (0 : ℤ) < text.length := by simpa using List.length_pos_of_ne_nil hne
      refine ⟨.inr ⟨hstart hzero, rfl, ?_⟩, hpolicy, hlength.le, fun _ => hlength, .inr⟩
      rcases hpolicy with hnone | ⟨written, list, hwritten, hdelivers, rfl⟩
      · exact absurd (hnone.symm.trans hmap) (by simp)
      · obtain rfl : listToTree kernel .nil list = regionMap := by
          simpa [publishedPolicy] using hmap
        exact ⟨written, list, hwritten, hdelivers, htext⟩

/-- The positions of the other files stay where they are. -/
theorem PolicyDevice.Reflects.files_move (hreflects : device.Reflects trace kernel) {file : ℕ}
    {position : ℤ} {event : DeviceEvent} (hposition : 0 ≤ position)
    (hfile : spent file (trace ++ [event]) = true ↔ 0 < position)
    (hothers : ∀ file', file' ≠ file → spent file' (trace ++ [event]) = spent file' trace)
    (testPolicy : Policy) :
    ∀ file' ppos,
      ({ device with testPolicy := testPolicy }.move file (some position)).files file' =
        some ppos →
      0 ≤ ppos ∧ (spent file' (trace ++ [event]) = true ↔ 0 < ppos) := by
  intro file' ppos hfile'
  rw [PolicyDevice.files_move] at hfile'
  by_cases hsame : file' = file
  · subst hsame
    obtain rfl : position = ppos := by simpa using hfile'
    exact ⟨hposition, hfile⟩
  · rw [if_neg hsame] at hfile'
    rw [hothers file' hsame]
    exact hreflects.files file' ppos hfile'

theorem PolicyDevice.Reflects.step (hreflects : device.Reflects trace kernel)
    {events : List DeviceEvent} (hstep : DeviceStep kernel device events next) :
    (∀ event ∈ events, DeviceJustified kernel trace event) ∧
      next.Reflects (trace ++ events) kernel := by
  cases hstep with
  | testInit created _ =>
      exact ⟨by simp [DeviceJustified], .inl rfl, by simp⟩
  | testExit _ =>
      refine ⟨by simp [DeviceJustified], ?_, by simp⟩
      rw [lastWrite_append]
      exact hreflects.policy
  | @opens file _ hfree =>
      refine ⟨by simp [DeviceJustified], ?_, hreflects.files_move le_rfl ?_ ?_ _⟩
      · rw [lastWrite_append]
        exact hreflects.policy
      · simp [spent_append]
      · intro file' hother
        simp [spent_append, bne_iff_ne.mpr (Ne.symm hother)]
  | @closes file ppos _ =>
      refine ⟨by simp [DeviceJustified], ?_, fun file' ppos hfile' => ?_⟩
      · rw [lastWrite_append]
        exact hreflects.policy
      · rw [PolicyDevice.files_move] at hfile'
        by_cases hsame : file' = file
        · simp [hsame] at hfile'
        · rw [if_neg hsame] at hfile'
          simpa [spent_append] using hreflects.files file' ppos hfile'
  | @seeks file ppos position _ hposition =>
      refine ⟨by simp [DeviceJustified], ?_, hreflects.files_move hposition ?_ ?_ _⟩
      · rw [lastWrite_append]
        exact hreflects.policy
      · simp [spent_append]
      · intro file' hother
        simp [spent_append, Ne.symm hother]
  | @calls file ppos fuel call step hfile hrun =>
      obtain ⟨hppos, hspent⟩ := hreflects.files file ppos hfile
      have hfresh : ppos = 0 → spent file trace = false := by
        rintro rfl
        simpa using hspent
      obtain ⟨hjustified, hpolicy, hafter, hmoved⟩ :=
        (FileCall.returns_of_run hppos hrun).justified hppos hreflects.policy hfresh
      refine ⟨by simpa [DeviceJustified] using hjustified, ?_,
        hreflects.files_move hafter ?_ ?_ _⟩
      · rw [lastWrite_append]
        exact hpolicy
      · simpa [spent_append, hspent] using hmoved
      · intro file' hother
        simp [spent_append, Ne.symm hother]
  | @callsAt file ppos position fuel call step hfile hposition hrun =>
      obtain ⟨hjustified, hpolicy, _, _⟩ :=
        (FileCall.returns_of_run hposition hrun).justified hposition hreflects.policy id
      refine ⟨by simpa [DeviceJustified] using hjustified, ?_, fun file' ppos hfile' => ?_⟩
      · rw [lastWrite_append]
        exact hpolicy
      · simpa [spent_append] using hreflects.files file' ppos hfile'
  | @guards ptr flags outcome _ hguard =>
      refine ⟨?_, ?_, fun file ppos hfile => ?_⟩
      · rcases hreflects.policy with hnone | ⟨written, list, hwritten, hdelivers, hpolicy⟩
        · simp [texasGuard, hnone] at hguard
        · rw [hpolicy] at hguard
          simpa [DeviceJustified] using ⟨written, hwritten, list, hdelivers, hguard⟩
      · rw [lastWrite_append]
        exact hreflects.policy
      · simpa [spent_append] using hreflects.files file ppos hfile

theorem PolicyDevice.reflects_of_run
    (hrun : Run (DeviceStep kernel) PolicyDevice.initial trace device) :
    device.Reflects trace kernel ∧ Explained (DeviceJustified kernel) trace := by
  induction hrun with
  | nil => exact ⟨⟨.inl rfl, by simp [PolicyDevice.initial]⟩, explained_nil _⟩
  | @snoc trace events device next _ hstep ih =>
      obtain ⟨hreflects, hexplained⟩ := ih
      obtain ⟨hjustified, hnext⟩ := hreflects.step hstep
      have hone : ∃ event, events = [event] := by cases hstep <;> exact ⟨_, rfl⟩
      obtain ⟨event, rfl⟩ := hone
      exact ⟨hnext, hexplained.snoc (hjustified event (List.mem_singleton_self event))⟩

/-- A call that fails might as well not have been made. -/
theorem DeviceStep.erase (hreflects : device.Reflects trace kernel) {events : List DeviceEvent}
    (hstep : DeviceStep kernel device events next) :
    Run (DeviceStep kernel) device (events.filter DeviceEvent.counts) next := by
  have hkeeps : (∀ event ∈ events, event.counts = true) →
      Run (DeviceStep kernel) device (events.filter DeviceEvent.counts) next := by
    intro hall
    rw [List.filter_eq_self.mpr hall]
    exact .single hstep
  cases hstep with
  | @calls file ppos fuel call step hfile hrun =>
      by_cases hret : 0 < step.ret
      · exact hkeeps (by simpa [DeviceEvent.counts] using hret)
      · obtain ⟨hppos, _⟩ := hreflects.files file ppos hfile
        obtain ⟨hafter, _⟩ :=
          (FileCall.returns_of_run hppos hrun).of_ret_le (not_lt.mp hret)
        rw [hafter, List.filter_cons_of_neg (by simpa [DeviceEvent.counts] using hret)]
        exact (PolicyDevice.move_self hfile).symm ▸ .nil
  | @callsAt file ppos position fuel call step hfile hposition hrun =>
      by_cases hret : 0 < step.ret
      · exact hkeeps (by simpa [DeviceEvent.counts] using hret)
      · obtain ⟨hafter, _⟩ :=
          (FileCall.returns_of_run hposition hrun).of_ret_le (not_lt.mp hret)
        rw [hafter, List.filter_cons_of_neg (by simpa [DeviceEvent.counts] using hret)]
        exact .nil
  | _ => exact hkeeps (by simp [DeviceEvent.counts])

end Runs

/-- **The device over its whole life.**  Whichever files are open and however their calls
are mixed: a call succeeds only at position zero, so through the file's own position
once after an opening or a seek back; a successful read shows and a guard obeys the list
that has been written last since the module was loaded; calls that fail change nothing;
and a file at its start can be used, as any open file can at position zero. -/
theorem device_run_explained {kernel : KernelRbtree} {trace : List DeviceEvent}
    {device : PolicyDevice} (hrun : Run (DeviceStep kernel) PolicyDevice.initial trace device) :
    Explained (DeviceJustified kernel) trace ∧
      Run (DeviceStep kernel) PolicyDevice.initial (trace.filter DeviceEvent.counts) device ∧
      ∀ file write list, device.files file ≠ none → write.Delivers 0 list →
        (spent file trace = false →
          ∃ next, DeviceStep kernel device [.called file (.write write) (strlen write.buf) []]
              next ∧ next.testPolicy = publishedPolicy kernel list) ∧
        ∃ next, DeviceStep kernel device
            [.calledAt file 0 (.write write) (strlen write.buf) []] next ∧
          next.testPolicy = publishedPolicy kernel list := by
  obtain ⟨hreflects, hexplained⟩ := PolicyDevice.reflects_of_run hrun
  refine ⟨hexplained, ?_, fun file write list hopen hdelivers => ?_⟩
  · clear hreflects hexplained
    induction hrun with
    | nil => exact .nil
    | snoc hbefore hstep ih =>
        rw [List.filter_append]
        exact ih.trans (hstep.erase (PolicyDevice.reflects_of_run hbefore).1)
  · obtain ⟨ppos, hfile⟩ := Option.ne_none_iff_exists'.mp hopen
    have hcall := FileCall.run_delivers kernel hdelivers device.testPolicy
    refine ⟨fun hfresh => ?_, _, .callsAt hfile le_rfl hcall, rfl⟩
    obtain ⟨hppos, hspent⟩ := hreflects.files file ppos hfile
    obtain rfl : ppos = 0 := by
      have hnot : ¬0 < ppos := fun hpositive => by simp [hspent.mpr hpositive] at hfresh
      omega
    exact ⟨_, .calls hfile hcall, rfl⟩

/-- Two files are open.  One has been written to; its next read shows nothing, and the
one after a seek back to the start shows the list. -/
theorem device_run_explained_twoFiles :
    ∃ device, Run (DeviceStep bottomUpRbtree) PolicyDevice.initial
        [.loaded, .opened 0, .opened 1, .called 1 (.write (writeOf [⟨0x1000, 0x10, 1⟩])) 1 [],
          .sought 1 0,
          .called 1 (.read ⟨1000, false⟩) 55 (outputText 0 [⟨0x1000, 0x10, 1⟩]),
          .guarded 0x1008 1 .allowed] device ∧
      ∃ next, DeviceStep bottomUpRbtree device
          [.called 0 (.write (writeOf multiNodePolicy)) 1 []] next ∧
        next.testPolicy = publishedPolicy bottomUpRbtree multiNodePolicy := by
  have hdelivers : (writeOf [⟨0x1000, 0x10, 1⟩]).Delivers 0 [⟨0x1000, 0x10, 1⟩] :=
    writeOf_delivers (by decide)
  have hload := Run.nil.snoc
    (@DeviceStep.testInit bottomUpRbtree PolicyDevice.initial true rfl)
  have hopen := hload.snoc (@DeviceStep.opens _ _ 0 rfl rfl)
  have hopen' := hopen.snoc (@DeviceStep.opens _ _ 1 rfl rfl)
  have hwrite := hopen'.snoc
    (@DeviceStep.calls _ _ 1 _ _ _ _ rfl (FileCall.run_delivers bottomUpRbtree hdelivers _))
  have hrefused := hwrite.snoc
    (@DeviceStep.calls _ _ 1 _ 0 (.read ⟨1000, false⟩) _ rfl rfl)
  have hsought := hrefused.snoc (@DeviceStep.seeks _ _ 1 _ 0 rfl le_rfl)
  have hread := hsought.snoc
    (@DeviceStep.calls _ _ 1 _ 0 (.read ⟨1000, false⟩) _ rfl rfl)
  have hguard := hread.snoc (@DeviceStep.guards _ _ 0x1008 1 .allowed rfl rfl)
  obtain ⟨_, herased, hwrites⟩ := device_run_explained hguard
  exact ⟨_, herased,
    (hwrites 0 _ _ (by decide) (writeOf_delivers (by decide))).1 (by decide)⟩

end Carat

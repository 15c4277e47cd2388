import Carat.LabelledRun
import Carat.PolicyModule

/-!
# Runs of the policy device

After `test_init` the three entry points may be called in any order: guards fire
as soon as an instrumented module is loaded, and `/proc/policydev` may be read
before anything was written to it.  `test_policy` starts zero-initialised, so its
`region_map` is NULL until the first write that succeeds, and no entry point
tests it.
-/

namespace Carat

open SteeredTree LabelledRun

/-- One call of an entry point.  The position belongs to the open file the call
goes through, so it is part of the call. -/
inductive DeviceOp where
  | guard (ptr : BitVec 64) (flags : BitVec 32)
  | input (fuel : ℕ) (call : WriteCall) (ppos : ℤ)
  | output (call : ReadCall) (ppos : ℤ)

namespace DeviceOp

/-- `test_policy` after the call.  A call that faults or never returns has not
reached its assignment to `test_policy`. -/
def policyAfter (kernel : KernelRbtree) (testPolicy : Policy) : DeviceOp → Policy
  | .input fuel call ppos =>
      match inputPolicy kernel fuel call ppos testPolicy with
      | .returns result => result.testPolicy
      | _ => testPolicy
  | _ => testPolicy

/-- The call is a write which delivers a list, in full. -/
def Delivers : DeviceOp → Prop
  | .input fuel call ppos => ∃ nodes, call.Delivers ppos nodes ∧ nodes.length ≤ fuel
  | _ => False

/-- The call gets as far as `test_policy.region_map`. -/
def ReadsPolicy : DeviceOp → Prop
  | .guard _ _ => True
  | .input _ _ _ => False
  | .output call ppos => ¬(ppos > 0 ∨ call.count < bufSize)

/-- If the call prints a policy, the text fits in the buffer. -/
def Fits (testPolicy : Policy) : DeviceOp → Prop
  | .output _ _ => ∀ regionMap, testPolicy.regionMap = some regionMap →
      RendersIn regionMap
  | _ => True

/-- The call does not use a missing policy: a guard reaches one of its three
verdicts, a read returns. -/
def EndsProperly (testPolicy : Policy) : DeviceOp → Prop
  | .guard ptr flags => ∃ outcome, texasGuard testPolicy ptr flags = .returns outcome
  | .input _ _ _ => True
  | .output call ppos => ∃ result, outputPolicy testPolicy call ppos = .returns result

end DeviceOp

def runDevice (kernel : KernelRbtree) (ops : List DeviceOp) : Policy :=
  ops.foldl (DeviceOp.policyAfter kernel) initialPolicy

section Calls

variable (kernel : KernelRbtree)

/-- A call leaves `region_map` set exactly when it was set or the call delivers
a list. -/
theorem DeviceOp.regionMap_policyAfter (testPolicy : Policy) (op : DeviceOp) :
    (op.policyAfter kernel testPolicy).regionMap ≠ none ↔
      testPolicy.regionMap ≠ none ∨ op.Delivers := by
  cases op with
  | guard ptr flags => simp [policyAfter, Delivers]
  | output call ppos => simp [policyAfter, Delivers]
  | input fuel call ppos =>
      by_cases hdelivers : ∃ nodes, call.Delivers ppos nodes ∧ nodes.length ≤ fuel
      · obtain ⟨nodes, hnodes, hfuel⟩ := hdelivers
        have hinput := inputPolicy_publishes kernel hnodes hfuel testPolicy
        have hright : (DeviceOp.input fuel call ppos).Delivers := ⟨nodes, hnodes, hfuel⟩
        simp [policyAfter, hinput, publishedPolicy, hright]
      · have hright : ¬(DeviceOp.input fuel call ppos).Delivers := hdelivers
        rw [or_iff_left hright]
        cases hinput : inputPolicy kernel fuel call ppos testPolicy with
        | faults fault => simp [policyAfter, hinput]
        | runsOn => simp [policyAfter, hinput]
        | returns result =>
            rcases inputPolicy_cases hinput with ⟨_, rfl⟩ | ⟨nodes, hnodes, hfuel, _⟩
            · simp [policyAfter, hinput]
            · exact absurd ⟨nodes, hnodes, hfuel⟩ hdelivers

theorem regionMap_runDevice (ops : List DeviceOp) :
    (runDevice kernel ops).regionMap ≠ none ↔ ∃ op ∈ ops, op.Delivers := by
  induction ops using List.reverseRecOn with
  | nil => simp [runDevice, initialPolicy]
  | append_singleton ops op ih =>
      rw [runDevice, List.foldl_append, List.foldl_cons, List.foldl_nil,
        DeviceOp.regionMap_policyAfter, ← runDevice, ih]
      simp [or_and_right, exists_or]

/-- One call ends properly exactly when the policy it reads is there and, if it
is to be printed, fits. -/
theorem DeviceOp.endsProperly_iff (testPolicy : Policy) (op : DeviceOp) :
    op.EndsProperly testPolicy ↔
      (op.ReadsPolicy → testPolicy.regionMap ≠ none ∧ op.Fits testPolicy) := by
  cases op with
  | guard ptr flags =>
      cases hmap : testPolicy.regionMap <;>
        simp [EndsProperly, ReadsPolicy, Fits, texasGuard, hmap]
  | input fuel call ppos => simp [EndsProperly, ReadsPolicy]
  | output call ppos =>
      simp only [EndsProperly, ReadsPolicy, Fits, outputPolicy]
      split
      next hearly => simp [hearly]
      next hopen =>
        cases hmap : testPolicy.regionMap with
        | none => simp [hopen]
        | some regionMap =>
            simp only [outputLoop_start]
            split
            next hrenders =>
              simp only [Outcome.bind_returns]
              split <;> simp [hrenders]
            next hover => simp [hopen, hover]

end Calls

/-- In every run from the zero-initialised policy, all calls end properly exactly
when each guard, and each read that is not turned away, comes after a write that
delivers a list and, if it prints, prints a policy that fits. -/
theorem runDevice_endsProperly_iff (kernel : KernelRbtree) (ops : List DeviceOp) :
    (∀ done op rest, ops = done ++ op :: rest →
      op.EndsProperly (runDevice kernel done)) ↔
    ∀ done op rest, ops = done ++ op :: rest → op.ReadsPolicy →
      (∃ earlier ∈ done, earlier.Delivers) ∧
        op.Fits (runDevice kernel done) := by
  simp only [DeviceOp.endsProperly_iff, regionMap_runDevice]

theorem guard_before_policy_faults :
    ¬(DeviceOp.guard 0x1000 2).EndsProperly (runDevice bottomUpRbtree []) ∧
      texasGuard initialPolicy 0x1000 2 = .faults .nullRegionMap ∧
      outputPolicy initialPolicy ⟨1000, false⟩ 0 = .faults .nullRegionMap :=
  ⟨by simp [DeviceOp.EndsProperly, runDevice, texasGuard, initialPolicy], rfl, rfl⟩

end Carat

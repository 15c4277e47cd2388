import Carat.Instrumentation
import Carat.Reachability

/-!
# The pass and the call graph

The pass adds calls of `texas_guard` and no others, and it has no list of
functions to leave alone.  A module that brings its own `texas_guard` therefore
keeps a guard that cannot reach itself exactly when nothing the guard runs needs a
guard.

The policy module is such a module and does not meet the condition: built with the
pass, as the test directories build it, its guard calls itself before it has looked
at the policy, and no call of it ever returns.
-/

namespace Carat

open Weaving LabelledRun Relation

/-! ## Direct calls -/

def Inst.directCallee? (I : Inst) : Option String :=
  match I.op with
  | .call (.function name) _ => some name
  | .invoke (.function name) _ _ _ => some name
  | _ => none

/-- The functions that the body of a function calls by name. -/
def Module.callees (M : Module) (name : String) : List String :=
  match M.definition? name with
  | some F => F.insts.filterMap Inst.directCallee?
  | none => []

/-- An edge of the call graph.  A call through a cast of a function is none: its callee is
not the function, here as in the compiler's call graph. -/
def Module.Calls (M : Module) (caller callee : String) : Prop :=
  callee ∈ M.callees caller

instance (M : Module) (caller callee : String) : Decidable (M.Calls caller callee) :=
  inferInstanceAs (Decidable (_ ∈ _))

theorem Module.calls_iff {M : Module} {caller callee : String} :
    M.Calls caller callee ↔ ∃ F, M.definition? caller = some F ∧
      ∃ I ∈ F.insts, I.directCallee? = some callee := by
  unfold Calls callees
  cases hF : M.definition? caller with
  | none => simp
  | some F => simp

/-- The body of the function has an access that the pass puts a guard in front of. -/
def Module.HasGuarded (M : Module) (name : String) : Prop :=
  ∃ F, M.definition? name = some F ∧ ∃ I ∈ F.insts, ∃ guard, NeedsGuard M I guard

theorem GuardSequence.directCallee? {bound : InstId} {guard : Guard} {sequence : List Inst}
    (hsequence : GuardSequence bound guard sequence) :
    (∀ J ∈ sequence, ∀ name, J.directCallee? = some name → name = "texas_guard") ∧
      ∃ J ∈ sequence, J.directCallee? = some "texas_guard" := by
  cases hsequence <;> simp [Inst.directCallee?, guardCall, eq_comm]

namespace Instrumented

variable {M M' : Module} {before : InstId → List Inst} (hinst : Instrumented M M' before)

include hinst

theorem calls_iff {caller callee : String} :
    M'.Calls caller callee ↔
      M.Calls caller callee ∨ M.HasGuarded caller ∧ callee = "texas_guard" := by
  rw [Module.calls_iff, Module.calls_iff, hinst.definition?_eq]
  constructor
  · rintro ⟨F', hF', J, hJ, hcallee⟩
    obtain ⟨F, hF, rfl⟩ := Option.map_eq_some_iff.mp hF'
    rw [Function.insts_weaveInsts, mem_weave] at hJ
    rcases hJ with hold | ⟨I, hI, hnew⟩
    · exact Or.inl ⟨F, hF, J, hold, hcallee⟩
    · have hIM := M.mem_insts_of_definition? hF I hI
      by_cases hneeds : ∃ guard, NeedsGuard M I guard
      · obtain ⟨guard, hguard⟩ := hneeds
        have hname := (hinst.guarded I hIM guard hguard).directCallee?.1 J hnew callee hcallee
        exact Or.inr ⟨⟨F, hF, I, hI, guard, hguard⟩, hname⟩
      · rw [hinst.unguarded I hIM (not_exists.mp hneeds)] at hnew
        simp at hnew
  · rintro (⟨F, hF, I, hI, hcallee⟩ | ⟨⟨F, hF, I, hI, guard, hguard⟩, rfl⟩)
    · refine ⟨F.weaveInsts before, by rw [hF, Option.map_some], I, ?_, hcallee⟩
      rw [Function.insts_weaveInsts, mem_weave]
      exact Or.inl hI
    · have hIM := M.mem_insts_of_definition? hF I hI
      obtain ⟨J, hJ, hcallee⟩ := (hinst.guarded I hIM guard hguard).directCallee?.2
      refine ⟨F.weaveInsts before, by rw [hF, Option.map_some], J, ?_, hcallee⟩
      rw [Function.insts_weaveInsts, mem_weave]
      exact Or.inr ⟨I, hI, hJ⟩

end Instrumented

/-! ## A guard that guards itself -/

section Descent

variable {Val World : Type}

/-- Control goes on to the next instruction; a call leaves the module. -/
def Inst.Straight (M : Module) (I : Inst) : Prop :=
  match I.op with
  | .call (.function name) _ => M.definition? name = none
  | .call (.value _) _ | .phi _ | .branch _ _ _ | .invoke _ _ _ _ | .ret _ | .resume _
  | .unreachable => False
  | _ => True

theorem Inst.Straight.of_called {M : Module} {I : Inst} (hstraight : I.Straight M)
    {callee : Callee} {args : List Value} (hcalled : I.op.called = some (callee, args)) :
    ∃ name, callee = .function name ∧ I.op = .call (.function name) args ∧
      M.definition? name = none := by
  unfold Inst.Straight at hstraight
  cases hop : I.op with
  | call callee' args' =>
      obtain ⟨rfl, rfl⟩ : callee' = callee ∧ args' = args := by
        simpa [Op.called, hop] using hcalled
      cases callee' with
      | function name => exact ⟨name, rfl, rfl, by simpa [hop] using hstraight⟩
      | value v => simp [hop] at hstraight
  | invoke callee' args' normal unwind => simp [hop] at hstraight
  | _ => simp [Op.called, hop] at hcalled

theorem Inst.Straight.action_cases {M : Module} {I : Inst} (hstraight : I.Straight M)
    {interp : Interp Val World} {value : Value → Option Val} {world : World}
    {events : List (Event Val)} {act : Action Val World}
    (haction : I.action interp value world = some (events, act)) :
    (∃ result next, act = .proceed result next) ∨
      ∃ name args vals, I.op = .call (.function name) args ∧ M.definition? name = none ∧
        act = .call name vals := by
  cases acts_of_action haction with
  | calls hcalled hname _ =>
      obtain ⟨name, rfl, hop, houter⟩ := hstraight.of_called hcalled
      obtain rfl := Option.some.inj hname
      exact Or.inr ⟨_, _, _, hop, houter, rfl⟩
  | branch hop _ | ret hop | resume hop => simp [Inst.Straight, hop] at hstraight
  | _ => exact Or.inl ⟨_, _, rfl⟩

/-- Functions outside the module return. -/
def Interp.ReturnsFromOutside (interp : Interp Val World) : Prop :=
  ∀ name args world, ∃ result next, interp.external name args world = some (.returns result next)

theorem Inst.Straight.step {M : Module} {I : Inst} (hstraight : I.Straight M)
    {interp : Interp Val World} (houtside : interp.ReturnsFromOutside) {frame : Frame Val}
    {callers : List (Frame Val)} {rest : List Inst} {world : World}
    (hrest : frame.rest = I :: rest) {events : List (Event Val)} {next : State Val World}
    (hstep : Steps M interp ⟨frame :: callers, world⟩ events next) :
    ∃ frame', next.frames = frame' :: callers ∧ frame'.rest = rest := by
  obtain ⟨act, haction, hperform⟩ := step_running hrest hstep
  rcases hstraight.action_cases haction with
    ⟨result, world', rfl⟩ | ⟨name, args, vals, hop, houter, rfl⟩
  · obtain rfl := Option.some.inj hperform
    exact ⟨_, rfl, rfl⟩
  · obtain ⟨result, world', hreply⟩ := houtside name vals world
    simp only [perform, houter, hreply, Option.bind_some, deliver, hrest, hop,
      Option.map_some, Option.some.injEq] at hperform
    subst hperform
    exact ⟨_, rfl, rfl⟩

/-- The innermost frame is on its way to a call, with nothing in between that could
take it elsewhere. -/
def State.HeadsFor (lead : List Inst) (call : Inst) (tail : List Inst)
    (state : State Val World) : Prop :=
  ∃ frame callers left, state.frames = frame :: callers ∧ left <:+ lead ∧
    frame.rest = left ++ call :: tail

theorem State.HeadsFor.step {M : Module} {F : Function} {B : Block} {lead tail : List Inst}
    {call : Inst} {name : String} {args : List Value}
    (hcall : call.op = .call (.function name) args)
    (hF : M.definition? name = some F) (hentry : F.blocks.head? = some B)
    (hB : B.insts = lead ++ call :: tail) (hlead : ∀ J ∈ lead, J.Straight M)
    {interp : Interp Val World} (houtside : interp.ReturnsFromOutside)
    {state next : State Val World} {events : List (Event Val)}
    (hheads : state.HeadsFor lead call tail) (hstep : Steps M interp state events next) :
    next.HeadsFor lead call tail := by
  obtain ⟨frames, world⟩ := state
  obtain ⟨frame, callers, left, rfl, hsuffix, hrest⟩ := hheads
  cases left with
  | nil =>
      obtain ⟨act, haction, hperform⟩ := step_running hrest hstep
      obtain ⟨_, vals, hname, rfl⟩ := (acts_of_action haction).of_called (by rw [hcall]; rfl)
      obtain rfl := Option.some.inj hname
      simp only [perform, hF, Frame.start, hentry, Option.map_some, Option.some.injEq] at hperform
      subst hperform
      exact ⟨_, _, lead, rfl, List.suffix_rfl, hB⟩
  | cons J left =>
      have hstraight := hlead J (hsuffix.subset List.mem_cons_self)
      obtain ⟨frame', hframes, hrest'⟩ := hstraight.step houtside hrest hstep
      exact ⟨frame', callers, left, hframes, (List.suffix_cons J left).trans hsuffix, hrest'⟩

theorem GuardSequence.ends_in_call {bound : InstId} {guard : Guard} {sequence : List Inst}
    (hsequence : GuardSequence bound guard sequence) (M : Module) :
    ∃ lead call args, sequence = lead ++ [call] ∧ (∀ J ∈ lead, J.Straight M) ∧
      call.op = .call (.function "texas_guard") args := by
  cases hsequence with
  | plain _ _ => exact ⟨[], _, _, rfl, by simp, rfl⟩
  | folded _ _ => exact ⟨[], _, _, rfl, by simp, rfl⟩
  | cast _ _ => exact ⟨[_], _, _, rfl, by simp [Inst.Straight], rfl⟩

/-- A guard sequence in front of an access leads into the guard. -/
theorem GuardSequence.enters {bound : InstId} {guard : Guard} {sequence : List Inst}
    (hsequence : GuardSequence bound guard sequence) {M : Module} {F : Function}
    (hF : M.definition? "texas_guard" = some F) {interp : Interp Val World}
    {frame inner : Frame Val} {tail : List Inst} (hrest : frame.rest = sequence ++ tail) {p : Val}
    (hp : frame.value interp guard.pointer = some p)
    (hinner : Frame.start F [p, interp.const (.int 32 guard.flags)] = some inner)
    (callers : List (Frame Val)) (world : World) :
    ∃ trace caller, Run (Steps M interp) ⟨frame :: callers, world⟩ trace
      ⟨inner :: caller :: callers, interp.enter world⟩ := by
  have hcall : ∀ (frame : Frame Val) (call : InstId) (v : Value) (tail : List Inst),
      frame.rest = ⟨call, .void, guardCall [v, .const (.int 32 guard.flags)]⟩ :: tail →
      frame.value interp v = some p →
        Run (Steps M interp) ⟨frame :: callers, world⟩ [guardEvent interp p guard.flags]
          ⟨inner :: frame :: callers, interp.enter world⟩ := by
    intro frame call v tail hrest hv
    have hflags : frame.value interp (.const (.int 32 guard.flags)) =
        some (interp.const (.int 32 guard.flags)) := rfl
    have hstep : step M interp ⟨frame :: callers, world⟩ =
        some ([guardEvent interp p guard.flags],
          ⟨inner :: frame :: callers, interp.enter world⟩) := by
      simp [step, hrest, Inst.action, guardCall, callAction, Callee.name, hv, hflags, perform,
        hF, hinner, guardEvent]
    exact .single hstep
  cases hsequence with
  | plain _ _ => exact ⟨_, frame, hcall frame _ _ tail hrest hp⟩
  | @folded call value hvalue _ =>
      have hconst : frame.value interp (.const (.bitcast value voidPtrType)) = some p := by
        rw [← hp, hvalue]
        simp [Frame.value, Interp.value, Interp.const]
      exact ⟨_, frame, hcall frame _ _ tail hrest hconst⟩
  | @cast cast call _ _ =>
      have hcast := castStep M interp callers world hrest
      rw [hp, Option.map_some] at hcast
      have hmoved := hcall (Frame.bind { frame with rest := _ } cast p) call
        (.inst cast voidPtrType) tail rfl (Function.update_self ..)
      exact ⟨_, _, (Run.single hcast).trans hmoved⟩

/-- When the guard's entry block comes to an access that gets a guard before it has
come to anything else of note, no call of the guard returns. -/
theorem Instrumented.guard_never_returns {M M' : Module} {before : InstId → List Inst}
    (hinst : Instrumented M M' before) {F : Function} {B : Block} {lead rest : List Inst}
    {I : Inst} {guard : Guard} (hF : M.definition? "texas_guard" = some F)
    (hentry : F.blocks.head? = some B) (hB : B.insts = lead ++ I :: rest)
    (hlead : ∀ J ∈ lead, J.Straight M) (hfree : ∀ J ∈ lead, ∀ guard, ¬NeedsGuard M J guard)
    (hneeds : NeedsGuard M I guard) {interp : Interp Val World}
    (houtside : interp.ReturnsFromOutside) {args : List Val} {world : World}
    {trace : List (Event Val)} {last : State Val World}
    (hmodule : ModuleRun M' interp "texas_guard" args world trace last) :
    last.frames ≠ [] := by
  have hmem : ∀ J ∈ B.insts, J ∈ M.insts := fun J hJ =>
    M.mem_insts_of_definition? hF J (List.mem_flatMap.mpr ⟨B, List.mem_of_mem_head? hentry, hJ⟩)
  have hI : I ∈ M.insts := hmem I (by simp [hB])
  have hnothing : weave (fun I => before I.id) lead = lead :=
    weave_empty fun J hJ => hinst.unguarded J (hmem J (by simp [hB, hJ])) (hfree J hJ)
  obtain ⟨cast, call, callArgs, hsequence, hcast, hcall⟩ :=
    (hinst.guarded I hI guard hneeds).ends_in_call M'
  have hF' : M'.definition? "texas_guard" = some (F.weaveInsts before) := by
    rw [hinst.definition?_eq, hF, Option.map_some]
  have hentry' : (F.weaveInsts before).blocks.head? =
      some { B with insts := weave (fun I => before I.id) B.insts } := by
    simp [Function.weaveInsts, Function.mapInsts, hentry]
  -- a cast of the pointer in front of the call belongs to the way there
  have hB' : weave (fun I => before I.id) B.insts =
      (lead ++ cast) ++ call :: I :: weave (fun I => before I.id) rest := by
    rw [hB, weave_append, weave_cons, hnothing, hsequence]
    simp
  have hlead' : ∀ J ∈ lead ++ cast, J.Straight M' := by
    intro J hJ
    rcases List.mem_append.mp hJ with hJ | hJ
    · have hstraight := hlead J hJ
      unfold Inst.Straight at hstraight ⊢
      split at hstraight <;> simp_all [hinst.definition?_eq]
    · exact hcast J hJ
  obtain ⟨F'', frame, hF'', hframe, hrun⟩ := hmodule
  obtain rfl := Option.some.inj (hF'.symm.trans hF'')
  simp only [Frame.start, hentry', Option.map_some, Option.some.injEq] at hframe
  have hheads := hrun.invariant (fun _ state => state.HeadsFor (lead ++ cast) call
    (I :: weave (fun I => before I.id) rest)) ?_ ?_
  · obtain ⟨top, callers, _, hframes, _⟩ := hheads
    simp [hframes]
  · subst hframe
    exact ⟨_, _, lead ++ cast, rfl, List.suffix_rfl, hB'⟩
  · intro _ _ _ _ hheads hstep
    exact hheads.step hcall hF' hentry' hB' hlead' houtside hstep

end Descent

/-! ## The policy module -/

namespace PolicyIR

/-! Opcodes; a comparison has one for each predicate. -/

def ptrtoint : ℕ := 0
def zext : ℕ := 1
def add : ℕ := 2
def bitAnd : ℕ := 3
def icmpEq : ℕ := 4
def icmpUlt : ℕ := 5
def icmpUge : ℕ := 6

def br : ℕ := 0

def rbNode : Ty := .other 0
def rbRoot : Ty := .other 1
def memoryRegion : Ty := .other 2

def nodePtr : Ty := .ptr rbNode
def regionPtr : Ty := .ptr memoryRegion

/-- `&test_policy.region_map`. -/
def regionMap : Value := .const (.other 0 (.ptr (.ptr rbRoot)))

def index (i : ℕ) : Value := .const (.int 32 i)

/-- A member of the structure a pointer points to. -/
def member (ptr : Value) (i : ℕ) : Op := .getelementptr ptr [index 0, index i]

/-- `DEBUG`, with `DEBUG_ENABLE`. -/
def debug (text : String) (args : List Value) : Op :=
  .call (.function "printk") (.const (.global text voidPtrType) :: args)

def texasGuard : Function where
  name := "texas_guard"
  blocks :=
    let addr : Value := .inst 0 (.int 64)
    let flags : Value := .arg 1 (.int 32)
    let found : Value := .inst 3 regionPtr
    [⟨0,
      [⟨0, .int 64, .other ptrtoint [.arg 0 voidPtrType]⟩,
        ⟨1, .int 32, debug "DEBUG: Checking address: %lx with flags %x" [addr, flags]⟩,
        ⟨2, .ptr rbRoot, .load regionMap⟩,
        ⟨3, regionPtr, .call (.function "lookup_region") [.inst 2 (.ptr rbRoot), addr]⟩,
        ⟨4, .int 1, .other icmpEq [found, .const (.null regionPtr)]⟩,
        ⟨5, .void, .branch br [.inst 4 (.int 1)] [4, 1]⟩]⟩,
      ⟨1,
        [⟨6, .ptr (.int 8), member found 2⟩,
          ⟨7, .int 8, .load (.inst 6 (.ptr (.int 8)))⟩,
          ⟨8, .int 32, .call (.function "check_protections") [flags, .inst 7 (.int 8)]⟩,
          ⟨9, .int 1, .other icmpEq [.inst 8 (.int 32), .const (.int 32 0)]⟩,
          ⟨10, .void, .branch br [.inst 9 (.int 1)] [2, 3]⟩]⟩,
      ⟨2,
        [⟨11, .int 32, debug "DEBUG: Disallowed memory access on address: %lx" [addr]⟩,
          ⟨12, .void, .branch br [] [5]⟩]⟩,
      ⟨3,
        [⟨13, .int 32, debug "DEBUG: Memory access allowed at address: %lx" [addr]⟩,
          ⟨14, .void, .branch br [] [5]⟩]⟩,
      ⟨4,
        [⟨15, .int 32,
            debug "DEBUG: Could not find a policy for memory address %lx" [addr]⟩,
          ⟨16, .void, .branch br [] [5]⟩]⟩,
      ⟨5, [⟨17, .void, .ret none⟩]⟩]

def lookupRegion : Function where
  name := "lookup_region"
  blocks :=
    let root : Value := .arg 0 (.ptr rbRoot)
    let lookupAddr : Value := .arg 1 (.int 64)
    let n : Value := .inst 22 nodePtr
    let data : Value := .inst 27 regionPtr
    let start : Value := .inst 29 (.int 64)
    let end_ : Value := .inst 34 (.int 64)
    [⟨0,
      [⟨18, .ptr nodePtr, member root 0⟩,
        ⟨19, nodePtr, .load (.inst 18 (.ptr nodePtr))⟩,
        ⟨20, .int 32, debug "DEBUG: Looking up address %lx\n" [lookupAddr]⟩,
        ⟨21, .void, .branch br [] [1]⟩]⟩,
      ⟨1,
        [⟨22, nodePtr,
            .phi [(0, .inst 19 nodePtr), (3, .inst 39 nodePtr), (5, .inst 44 nodePtr)]⟩,
          ⟨23, .int 1, .other icmpEq [n, .const (.null nodePtr)]⟩,
          ⟨24, .void, .branch br [.inst 23 (.int 1)] [7, 2]⟩]⟩,
      -- container_of, then the bounds of the region.
      ⟨2,
        [⟨25, voidPtrType, .bitcast n⟩,
          ⟨26, voidPtrType,
            .getelementptr (.inst 25 voidPtrType) [.const (.int 64 (2 ^ 64 - 24))]⟩,
          ⟨27, regionPtr, .bitcast (.inst 26 voidPtrType)⟩,
          ⟨28, .ptr (.int 64), member data 0⟩,
          ⟨29, .int 64, .load (.inst 28 (.ptr (.int 64)))⟩,
          ⟨30, .ptr (.int 64), member data 0⟩,
          ⟨31, .int 64, .load (.inst 30 (.ptr (.int 64)))⟩,
          ⟨32, .ptr (.int 64), member data 1⟩,
          ⟨33, .int 64, .load (.inst 32 (.ptr (.int 64)))⟩,
          ⟨34, .int 64, .other add [.inst 31 (.int 64), .inst 33 (.int 64)]⟩,
          ⟨35, .int 32, debug "DEBUG: start: %lx\nend: %lx" [start, end_]⟩,
          ⟨36, .int 1, .other icmpUlt [lookupAddr, start]⟩,
          ⟨37, .void, .branch br [.inst 36 (.int 1)] [3, 4]⟩]⟩,
      ⟨3,
        [⟨38, .ptr nodePtr, member n 2⟩,
          ⟨39, nodePtr, .load (.inst 38 (.ptr nodePtr))⟩,
          ⟨40, .void, .branch br [] [1]⟩]⟩,
      ⟨4,
        [⟨41, .int 1, .other icmpUge [lookupAddr, end_]⟩,
          ⟨42, .void, .branch br [.inst 41 (.int 1)] [5, 6]⟩]⟩,
      ⟨5,
        [⟨43, .ptr nodePtr, member n 1⟩,
          ⟨44, nodePtr, .load (.inst 43 (.ptr nodePtr))⟩,
          ⟨45, .void, .branch br [] [1]⟩]⟩,
      ⟨6, [⟨46, .void, .ret (some data)⟩]⟩,
      ⟨7, [⟨47, .void, .ret (some (.const (.null regionPtr)))⟩]⟩]

def checkProtections : Function where
  name := "check_protections"
  blocks :=
    let access : Value := .arg 0 (.int 32)
    [⟨0,
      [⟨48, .int 32, .other zext [.arg 1 (.int 8)]⟩,
        ⟨49, .int 32, .other bitAnd [access, .inst 48 (.int 32)]⟩,
        ⟨50, .int 1, .other icmpEq [.inst 49 (.int 32), access]⟩,
        ⟨51, .int 32, .other zext [.inst 50 (.int 1)]⟩,
        ⟨52, .void, .ret (some (.inst 51 (.int 32)))⟩]⟩]

end PolicyIR

/-- `carat-cop.c` as the pass is given it, with the locals in registers, as far as
`texas_guard` can get in it. -/
def policyModule : Module where
  functions :=
    [⟨"printk", []⟩, PolicyIR.lookupRegion, PolicyIR.checkProtections, PolicyIR.texasGuard]
  distinct := by decide

theorem policyModule_texasGuard :
    policyModule.definition? "texas_guard" = some PolicyIR.texasGuard := by
  decide

theorem policyModule_walksEnd : policyModule.WalksEnd := .of_fuel 5 (by decide)

theorem policyModule_acyclic :
    ¬TransGen policyModule.Calls "texas_guard" "texas_guard" := by
  let helpers : List String := ["printk", "lookup_region", "check_protections"]
  have hstart : ∀ b ∈ policyModule.callees "texas_guard", b ∈ helpers := by decide
  have hclosed : ∀ a ∈ helpers, ∀ b ∈ policyModule.callees a, b ∈ helpers := by decide
  exact Reachability.not_transGen_of_closed (· ∈ helpers) hstart
    (fun a b ha hcall => hclosed a ha b hcall) (by decide)

theorem policyModule_guards_policy : NeedsGuard policyModule
    ⟨2, .ptr PolicyIR.rbRoot, .load PolicyIR.regionMap⟩ ⟨2, PolicyIR.regionMap, 1⟩ := by
  refine ⟨PolicyIR.regionMap, 1, rfl, fun hexempt => ?_, rfl⟩
  simpa [PolicyIR.regionMap] using hexempt.eq_inst

/-- Functions outside the module return, and nothing the module executes traps. -/
structure Interp.Obliging {Val World : Type} (interp : Interp Val World) : Prop where
  outside : interp.ReturnsFromOutside
  execute : ∀ operation ty operands world, ∃ result next,
    interp.execute operation ty operands world = some (result, next)

example : ∃ interp : Interp Unit Unit, interp.Obliging :=
  ⟨{ unit := ()
     constant := fun _ => ()
     alloca := fun _ _ _ _ => none
     load := fun _ _ _ => none
     store := fun _ _ _ _ => none
     getelementptr := fun _ _ _ => none
     convert := fun _ _ _ => none
     execute := fun _ _ _ _ => some ((), ())
     choose := fun _ _ => none
     resolve := fun _ => none
     external := fun _ _ _ => some (.returns () ())
     enter := id
     leave := id
     throw := fun _ => id },
    fun _ _ _ => ⟨_, _, rfl⟩, fun _ _ _ _ => ⟨_, _, rfl⟩⟩

/-- A call of the guard never ends: it does not return, and frames pile up without
bound. -/
structure GuardDescends {Val World : Type} (M : Module) (interp : Interp Val World)
    (args : List Val) (world : World) : Prop where
  noReturn : ∀ trace last, ModuleRun M interp "texas_guard" args world trace last →
    last.frames ≠ []
  deep : ∀ depth, ∃ trace last, ModuleRun M interp "texas_guard" args world trace last ∧
    last.frames.length = depth + 1

section PolicyGuard

variable {Val World : Type} {M' : Module} {before : InstId → List Inst}
  (hinst : Instrumented policyModule M' before) {interp : Interp Val World}

include hinst

theorem policyGuard_definition? : M'.definition? "texas_guard" =
    some (PolicyIR.texasGuard.weaveInsts before) := by
  rw [hinst.definition?_eq, policyModule_texasGuard, Option.map_some]

theorem policyGuard_never_returns (houtside : interp.ReturnsFromOutside) {args : List Val}
    {world : World} {trace : List (Event Val)} {last : State Val World}
    (hmodule : ModuleRun M' interp "texas_guard" args world trace last) :
    last.frames ≠ [] := by
  have hsplit : PolicyIR.texasGuard.insts.take 6 = PolicyIR.texasGuard.insts.take 2 ++
      ⟨2, .ptr PolicyIR.rbRoot, .load PolicyIR.regionMap⟩ ::
        (PolicyIR.texasGuard.insts.take 6).drop 3 := rfl
  refine hinst.guard_never_returns policyModule_texasGuard rfl hsplit ?_ ?_
    policyModule_guards_policy houtside hmodule
  · have hprintk : policyModule.definition? "printk" = none := by decide
    simp [PolicyIR.texasGuard, Function.insts, Inst.Straight, PolicyIR.debug, hprintk]
  · rintro J hJ guard ⟨ptr, flags, haccess, _⟩
    have hnone : ∀ J ∈ PolicyIR.texasGuard.insts.take 2, J.op.access = none := by decide
    simp [hnone J hJ] at haccess

/-- From the guard's entry to its entry in the call it makes of itself. -/
theorem policyGuard_descends (hobliging : interp.Obliging) {frame : Frame Val} {p flags : Val}
    (hstart : Frame.start (PolicyIR.texasGuard.weaveInsts before) [p, flags] = some frame)
    (callers : List (Frame Val)) (world : World) :
    ∃ trace inner p' flags' caller world',
      Frame.start (PolicyIR.texasGuard.weaveInsts before) [p', flags'] = some inner ∧
      Run (Steps M' interp) ⟨frame :: callers, world⟩ trace
        ⟨inner :: caller :: callers, world'⟩ := by
  let cast : Inst := ⟨0, .int 64, .other PolicyIR.ptrtoint [.arg 0 voidPtrType]⟩
  let print : Inst := ⟨1, .int 32, PolicyIR.debug "DEBUG: Checking address: %lx with flags %x"
    [.inst 0 (.int 64), .arg 1 (.int 32)]⟩
  let load : Inst := ⟨2, .ptr PolicyIR.rbRoot, .load PolicyIR.regionMap⟩
  have hcast : before 0 = [] :=
    hinst.before_of_no_access (I := cast) (by decide) rfl
  have hprint : before 1 = [] :=
    hinst.before_of_no_access (I := print) (by decide) rfl
  have hsequence := hinst.guarded load (by decide) _ policyModule_guards_policy
  let F := PolicyIR.texasGuard.weaveInsts before
  have houter : M'.definition? "printk" = none := by
    rw [hinst.definition?_eq, show policyModule.definition? "printk" = none by decide,
      Option.map_none]
  let rest := (PolicyIR.texasGuard.insts.take 6).drop 3
  let tail := load :: weave (fun I => before I.id) rest
  have hwoven : weave (fun I => before I.id) (cast :: print :: load :: rest) =
      cast :: print :: (before 2 ++ tail) := by
    rw [weave_cons, weave_cons, weave_cons, show before cast.id = [] from hcast,
      show before print.id = [] from hprint]
    rfl
  have hentry : ∀ args : List Val, Frame.start F args =
      some ⟨F, 0, cast :: print :: (before 2 ++ tail), fun _ => none, args⟩ := by
    intro args
    rw [← hwoven]
    rfl
  obtain rfl := Option.some.inj ((hentry _).symm.trans hstart)
  obtain ⟨addr, world₁, haddr⟩ :=
    hobliging.execute (.other PolicyIR.ptrtoint) (.int 64) [p] world
  let format := interp.const
    (.global "DEBUG: Checking address: %lx with flags %x" voidPtrType)
  obtain ⟨printed, world₂, hprinted⟩ :=
    hobliging.outside "printk" [format, addr, flags] world₁
  let frame₁ : Frame Val := ⟨F, 0, print :: (before 2 ++ tail),
    Function.update (fun _ => none) 0 (some addr), [p, flags]⟩
  let frame₂ := { frame₁ with rest := before 2 ++ tail }.bind 1 printed
  have hfirst : step M' interp ⟨⟨F, 0, cast :: print :: (before 2 ++ tail), fun _ => none,
      [p, flags]⟩ :: callers, world⟩ =
        some ([.executes (.other PolicyIR.ptrtoint) [p]], ⟨frame₁ :: callers, world₁⟩) := by
    simp [step, cast, Inst.action, operationAction, Frame.value, Interp.value, haddr, perform,
      Frame.bind, frame₁]
  have hsecond : step M' interp ⟨frame₁ :: callers, world₁⟩ =
      some ([.call "printk" [format, addr, flags]], ⟨frame₂ :: callers, world₂⟩) := by
    simp [step, frame₁, frame₂, print, PolicyIR.debug, Inst.action, callAction, Callee.name,
      Frame.value, Interp.value, hprinted, perform, houter, deliver, format]
  have hrest : frame₂.rest = before 2 ++ tail := rfl
  obtain ⟨trace, caller, hthird⟩ := hsequence.enters (policyGuard_definition? hinst) hrest rfl
    (hentry _) callers world₂
  exact ⟨_, _, _, _, caller, _, hentry _,
    ((Run.single hfirst).trans (Run.single hsecond)).trans hthird⟩

theorem policyGuard_reaches_depth (hobliging : interp.Obliging) (p flags : Val)
    (world : World) (depth : ℕ) :
    ∃ trace inner p' flags' callers world',
      Frame.start (PolicyIR.texasGuard.weaveInsts before) [p', flags'] = some inner ∧
      ModuleRun M' interp "texas_guard" [p, flags] world trace ⟨inner :: callers, world'⟩ ∧
      callers.length = depth := by
  induction depth with
  | zero =>
      exact ⟨_, _, p, flags, [], _, rfl, ⟨_, _, policyGuard_definition? hinst, rfl, .nil⟩, rfl⟩
  | succ depth ih =>
      obtain ⟨_, _, _, _, callers, world', hstart, ⟨F, frame, hF, hframe, hrun⟩, hdepth⟩ := ih
      obtain ⟨_, inner, p', flags', caller, world'', hinner, hmore⟩ :=
        policyGuard_descends hinst hobliging hstart callers world'
      exact ⟨_, inner, p', flags', caller :: callers, world'', hinner,
        ⟨F, frame, hF, hframe, hrun.trans hmore⟩, by simp [hdepth]⟩

theorem policyGuard_guardDescends (hobliging : interp.Obliging) (p flags : Val)
    (world : World) : GuardDescends M' interp [p, flags] world where
  noReturn _ _ hmodule := policyGuard_never_returns hinst hobliging.outside hmodule
  deep depth := by
    obtain ⟨_, _, _, _, callers, _, _, hmodule, hdepth⟩ :=
      policyGuard_reaches_depth hinst hobliging p flags world depth
    exact ⟨_, _, hmodule, by simp [hdepth]⟩

theorem policyGuard_calls_itself : M'.Calls "texas_guard" "texas_guard" :=
  hinst.calls_iff.mpr (Or.inr ⟨⟨PolicyIR.texasGuard, policyModule_texasGuard, _, by decide,
    _, policyModule_guards_policy⟩, rfl⟩)

end PolicyGuard

/-! ## When the guard stays clear of itself -/

/-- A guard that cannot reach itself still cannot after the pass, exactly when no
function it reaches, itself included, has an access that gets a guard. -/
theorem runOnModule_guard_acyclic_iff {toGuardOrder allGuardsOrder : IterationOrder}
    {fuel : ℕ} {M M' : Module}
    (hrun : runOnModule toGuardOrder allGuardsOrder fuel M = some M')
    (hacyclic : ¬TransGen M.Calls "texas_guard" "texas_guard") :
    ¬TransGen M'.Calls "texas_guard" "texas_guard" ↔
      ∀ name, ReflTransGen M.Calls "texas_guard" name → ¬M.HasGuarded name := by
  obtain ⟨before, hinst⟩ := runOnModule_instrumented hrun
  have hcycle : TransGen M'.Calls "texas_guard" "texas_guard" ↔
      TransGen M.Calls "texas_guard" "texas_guard" ∨
        ∃ name, ReflTransGen M.Calls "texas_guard" name ∧ M.HasGuarded name :=
    Reachability.transGen_self_iff_of_added
      (fun caller callee hcall => hinst.calls_iff.mpr (Or.inl hcall))
      (fun caller hguarded => hinst.calls_iff.mpr (Or.inr ⟨hguarded, rfl⟩))
      (fun caller callee hcall => hinst.calls_iff.mp hcall)
  rw [hcycle, or_iff_right hacyclic]
  push Not
  rfl

/-- A guard that keeps what it is asked in a local and prints it, and a module function
that does get a guard. -/
def printingModule : Module where
  functions :=
    [⟨"texas_guard",
      [⟨0,
        [⟨0, .ptr (.int 32), .alloca (.int 32) (.const (.int 32 1))⟩,
          ⟨1, .void, .store (.arg 1 (.int 32)) (.inst 0 (.ptr (.int 32)))⟩,
          ⟨2, .int 32, .load (.inst 0 (.ptr (.int 32)))⟩,
          ⟨3, .int 32, .call (.function "printk") [.inst 2 (.int 32)]⟩,
          ⟨4, .void, .ret none⟩]⟩]⟩,
    ⟨"poke",
      [⟨0, [⟨5, .void, .store (.const (.int 8 7)) (.arg 0 voidPtrType)⟩, ⟨6, .void, .ret none⟩]⟩]⟩,
    ⟨"printk", []⟩]
  distinct := by decide

theorem printingModule_reaches {name : String}
    (hreach : ReflTransGen printingModule.Calls "texas_guard" name) :
    name ∈ ["texas_guard", "printk"] := by
  have hclosed : ∀ a ∈ ["texas_guard", "printk"], ∀ b ∈ printingModule.callees a,
      b ∈ ["texas_guard", "printk"] := by decide
  exact Reachability.inside_of_closed (· ∈ ["texas_guard", "printk"])
    (fun a b ha hcall => hclosed a ha b hcall) (by simp) hreach

theorem printingModule_unguarded {name : String} (hname : name ∈ ["texas_guard", "printk"]) :
    ¬printingModule.HasGuarded name := by
  rintro ⟨F, hF, I, hI, guard, ptr, flags, haccess, hnot, _⟩
  refine hnot (Or.inl ⟨ptr, ?_⟩)
  have hlocal : ∀ name ∈ ["texas_guard", "printk"], ∀ F ∈ printingModule.definition? name,
      ∀ I ∈ F.insts, ∀ access ∈ I.op.access,
        getInternalPointer printingModule access.1 = none ∧
          isAlloca printingModule access.1 = true := by
    decide
  obtain ⟨hends, halloca⟩ := hlocal name hname F hF I hI (ptr, flags) haccess
  exact ⟨.here hends, halloca⟩

/-- The condition fails of the policy module, and holds of a guard that only prints. -/
theorem runOnModule_guard_acyclic_modules :
    (∃ M', runOnModule .inOrder .inOrder 5 policyModule = some M' ∧
      (¬TransGen M'.Calls "texas_guard" "texas_guard" ↔
        ∀ name, ReflTransGen policyModule.Calls "texas_guard" name →
          ¬policyModule.HasGuarded name)) ∧
    ∃ M', runOnModule .inOrder .inOrder 5 printingModule = some M' ∧
      ¬TransGen M'.Calls "texas_guard" "texas_guard" := by
  obtain ⟨M', hM'⟩ : ∃ M', runOnModule .inOrder .inOrder 5 policyModule = some M' :=
    Option.isSome_iff_exists.mp (by decide +kernel)
  obtain ⟨N', hN'⟩ : ∃ N', runOnModule .inOrder .inOrder 5 printingModule = some N' :=
    Option.isSome_iff_exists.mp (by decide +kernel)
  refine ⟨⟨M', hM', runOnModule_guard_acyclic_iff hM' policyModule_acyclic⟩, N', hN', ?_⟩
  have hacyclic : ¬TransGen printingModule.Calls "texas_guard" "texas_guard" := by
    have hstart : ∀ b ∈ printingModule.callees "texas_guard", b = "printk" := by decide
    have hclosed : ∀ b, b ∉ printingModule.callees "printk" := fun b => List.not_mem_nil
    refine Reachability.not_transGen_of_closed (· = "printk") hstart ?_ (by decide)
    rintro a b rfl hcall
    exact absurd hcall (hclosed b)
  exact (runOnModule_guard_acyclic_iff hN' hacyclic).mpr fun name hreach =>
    printingModule_unguarded (printingModule_reaches hreach)

/-- In whatever order the pass goes through its maps, the policy module's guard comes
out calling itself, and no call of it ends, whatever memory holds. -/
theorem policyModule_guard_descends :
    policyModule.definition? "texas_guard" = some PolicyIR.texasGuard ∧
    ¬TransGen policyModule.Calls "texas_guard" "texas_guard" ∧
    ∀ toGuardOrder allGuardsOrder, ∃ bound, ∀ fuel, bound ≤ fuel →
      ∃ M', runOnModule toGuardOrder allGuardsOrder fuel policyModule = some M' ∧
        TransGen M'.Calls "texas_guard" "texas_guard" ∧
        ∀ (Val World : Type) (interp : Interp Val World), interp.Obliging →
          ∀ p flags world, GuardDescends M' interp [p, flags] world := by
  refine ⟨policyModule_texasGuard, policyModule_acyclic, fun toGuardOrder allGuardsOrder => ?_⟩
  obtain ⟨bound, hbound⟩ := runOnModule_total toGuardOrder allGuardsOrder policyModule_walksEnd
  refine ⟨bound, fun fuel hfuel => ?_⟩
  obtain ⟨M', hM'⟩ := hbound fuel hfuel
  obtain ⟨before, hinst⟩ := runOnModule_instrumented hM'
  exact ⟨M', hM', .single (policyGuard_calls_itself hinst),
    fun _ _ _ hobliging p flags world => policyGuard_guardDescends hinst hobliging p flags world⟩

end Carat

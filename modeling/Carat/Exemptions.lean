import Carat.FlatMemory
import Carat.GuardInsertion
import Mathlib.Data.List.TakeWhile

/-!
# Accesses without a guard

In flat memory, a pointer whose walk ends at an `alloca` is the address of an object
that this `alloca` made in the same activation, plus what the `getelementptr`s that
led to it have added; and a direct result of `malloc` or `calloc` is null or the
start of a block that such a call has handed out.  The invariant below carries this through every step of the
interpretation that tracks origins.  How far the `getelementptr`s lead away from the
object, how large a block is and whether it is still live is not looked at by the
pass.
-/

namespace Carat

open LabelledRun

/-- What is known of a value that an instruction has computed. -/
structure ResultSound (M : Module) (objects : List StackObject)
    (heap : List HeapBlock) (id : InstId) (result : Tracked) : Prop where
  stack : ∀ ty a aty, BaseOf M (.inst id ty) (.inst a aty) →
    isAlloca M (.inst a aty) = true → ∃ object ∈ objects, object.alloca = a ∧
      ∃ offset, result = .within object offset
  heap : ∀ ty, isRedundant M (.inst id ty) = true → ∃ room, result = .handed room ∧
    ∀ object ∈ room, ∃ block ∈ heap, block.toMemoryObject = object

structure FrameSound (M : Module) (heap : List HeapBlock)
    (objects : List StackObject) (frame : Frame Tracked) : Prop where
  known : ∀ I ∈ frame.function.insts, I ∈ M.insts
  restKnown : ∀ I ∈ frame.rest, I ∈ M.insts
  env : ∀ id result, frame.env id = some result →
    ResultSound M objects heap id result

structure FrameWaits (M : Module) (heap : List HeapBlock)
    (objects : List StackObject) (frame : Frame Tracked) : Prop
    extends FrameSound M heap objects frame where
  anyResult : ∀ I ∈ frame.rest.head?, ∀ result,
    ResultSound M objects heap I.id result

/-- Waiting frames and their objects; below are frames that are not ours. -/
inductive CallersSound (M : Module) (heap : List HeapBlock) :
    List (Frame Tracked) → List (List StackObject) → Prop where
  | outside {stack : List (List StackObject)} : CallersSound M heap [] stack
  | waits {frame : Frame Tracked} {callers : List (Frame Tracked)}
      {objects : List StackObject} {below : List (List StackObject)} :
      FrameWaits M heap objects frame → CallersSound M heap callers below →
        CallersSound M heap (frame :: callers) (objects :: below)

inductive FramesSound (M : Module) (heap : List HeapBlock) :
    List (Frame Tracked) → List (List StackObject) → Prop where
  | finished {stack : List (List StackObject)} : FramesSound M heap [] stack
  | running {frame : Frame Tracked} {callers : List (Frame Tracked)}
      {objects : List StackObject} {below : List (List StackObject)} :
      FrameSound M heap objects frame → CallersSound M heap callers below →
        FramesSound M heap (frame :: callers) (objects :: below)

def StateSound (M : Module) (state : State Tracked FlatWorld) : Prop :=
  FramesSound M state.world.heap state.frames state.world.stack

section Sound

variable {M : Module} {platform : Platform} {heap heap' : List HeapBlock}
  {objects objects' : List StackObject} {frame : Frame Tracked}
  {callers : List (Frame Tracked)} {below : List (List StackObject)}

theorem ResultSound.mono {id : InstId} {result : Tracked}
    (hsound : ResultSound M objects heap id result)
    (hobjects : ∀ object ∈ objects, object ∈ objects') (hheap : HeapGrows heap heap') :
    ResultSound M objects' heap' id result where
  stack := by
    intro ty a aty hbase halloca
    obtain ⟨object, hobject, hrest⟩ := hsound.stack ty a aty hbase halloca
    exact ⟨object, hobjects object hobject, hrest⟩
  heap := by
    intro ty hredundant
    obtain ⟨room, hhanded, hknown⟩ := hsound.heap ty hredundant
    refine ⟨room, hhanded, fun object hroom => ?_⟩
    obtain ⟨block, hblock, rfl⟩ := hknown object hroom
    exact hheap block hblock

theorem FrameSound.mono (hsound : FrameSound M heap objects frame)
    (hobjects : ∀ object ∈ objects, object ∈ objects') (hheap : HeapGrows heap heap') :
    FrameSound M heap' objects' frame where
  known := hsound.known
  restKnown := hsound.restKnown
  env := fun id result hresult => (hsound.env id result hresult).mono hobjects hheap

theorem CallersSound.mono (hsound : CallersSound M heap callers below)
    (hheap : HeapGrows heap heap') : CallersSound M heap' callers below := by
  induction hsound with
  | outside => exact .outside
  | waits hframe _ ih =>
      refine .waits ⟨hframe.toFrameSound.mono (fun _ h => h) hheap, ?_⟩ ih
      exact fun I hI result => (hframe.anyResult I hI result).mono (fun _ h => h) hheap

theorem CallersSound.frames (hsound : CallersSound M heap callers below) :
    FramesSound M heap callers below := by
  cases hsound with
  | outside => exact .finished
  | waits hframe hcallers => exact .running hframe.toFrameSound hcallers

theorem FrameSound.bind (hsound : FrameSound M heap objects frame) {id : InstId}
    {result : Tracked} (hresult : ResultSound M objects heap id result) :
    FrameSound M heap objects (frame.bind id result) where
  known := hsound.known
  restKnown := hsound.restKnown
  env := by
    intro other value hvalue
    by_cases hid : other = id
    · subst other
      obtain rfl : result = value := by simpa [Frame.bind] using hvalue
      exact hresult
    · exact hsound.env other value (by simpa [Frame.bind, hid] using hvalue)

theorem FrameSound.withRest (hsound : FrameSound M heap objects frame)
    {rest : List Inst} (hrest : ∀ I ∈ rest, I ∈ M.insts) :
    FrameSound M heap objects { frame with rest := rest } where
  known := hsound.known
  restKnown := hrest
  env := hsound.env

/-! ## Which results are constrained -/

/-- The instructions whose results the exemptions rest on. -/
def Op.isTracked : Op → Bool
  | .alloca _ _ => true
  | .getelementptr _ _ => true
  | .bitcast src => src.ty.isPtr
  | .call (.function name) _ => name == "malloc" || name == "calloc"
  | _ => false

theorem Op.isTracked_of_executed {op : Op} {operation : Operation} {operands : List Value}
    (hexecuted : op.executed = some (operation, operands)) : op.isTracked = false := by
  cases op <;> simp_all [Op.executed, Op.isTracked]

theorem Op.allocates_of_isTracked {op : Op} {callee : Callee} {args : List Value}
    (htracked : op.isTracked = true) (hcalled : op.called = some (callee, args)) :
    ∃ name, callee = .function name ∧ op = .call (.function name) args ∧
      (name = "malloc" ∨ name = "calloc") := by
  cases op with
  | call callee' args' =>
      obtain ⟨rfl, rfl⟩ : callee' = callee ∧ args' = args := by simpa [Op.called] using hcalled
      cases callee' with
      | function name => exact ⟨name, rfl, rfl, by simpa [Op.isTracked] using htracked⟩
      | value v => simp [Op.isTracked] at htracked
  | invoke callee' args' normal unwind => simp [Op.isTracked] at htracked
  | _ => simp [Op.called] at hcalled

theorem resultSound_of_untracked {I : Inst} (hI : I ∈ M.insts)
    (huntracked : I.op.isTracked = false) (result : Tracked) :
    ResultSound M objects heap I.id result := by
  constructor
  · intro ty a aty hbase halloca
    cases hbase with
    | here _ =>
        obtain ⟨allocated, count, hop⟩ := (isAlloca_inst hI).mp halloca
        simp [hop, Op.isTracked] at huntracked
    | step hnext _ =>
        rcases (getInternalPointer_inst hI).mp hnext with ⟨indices, hop⟩ | ⟨hop, hptr⟩
        · simp [hop, Op.isTracked] at huntracked
        · simp [hop, hptr, Op.isTracked] at huntracked
  · intro ty hredundant
    obtain ⟨name, args, hop, rfl | rfl⟩ := (isRedundant_inst hI).mp hredundant <;>
      simp [hop, Op.isTracked] at huntracked

/-- A pointer whose walk ends at an `alloca` leads back to one of its objects. -/
theorem FrameSound.derived (hsound : FrameSound M heap objects frame)
    {ptr : Value} {v : Tracked} (hv : frame.value platform.tracked ptr = some v)
    {a : InstId} {aty : Ty} (hbase : BaseOf M ptr (.inst a aty))
    (halloca : isAlloca M (.inst a aty) = true) :
    ∃ object ∈ objects, object.alloca = a ∧
      ∃ offset, v = .within object offset := by
  obtain ⟨id, ty, rfl⟩ := Exempt.eq_inst (Or.inl ⟨_, hbase, halloca⟩)
  exact (hsound.env id v hv).stack ty a aty hbase halloca

/-! ## One step -/

def ProceedsSoundly (M : Module) (world next : FlatWorld)
    (objects : List StackObject) (below : List (List StackObject)) (id : InstId)
    (result : Tracked) : Prop :=
  ∃ objects', next.stack = objects' :: below ∧ (∀ object ∈ objects, object ∈ objects') ∧
    HeapGrows world.heap next.heap ∧ ResultSound M objects' next.heap id result

theorem ProceedsSoundly.of_keeps {world next : FlatWorld} {id : InstId} {result : Tracked}
    (hstack : world.stack = objects :: below) (hkeeps : world.Keeps next)
    (hresult : ResultSound M objects next.heap id result) :
    ProceedsSoundly M world next objects below id result :=
  ⟨objects, by rw [hkeeps.stack, hstack], fun _ h => h, hkeeps.heap, hresult⟩

section Proceed

variable {world next : FlatWorld} {I : Inst} (hI : I ∈ M.insts)
  (hstack : world.stack = objects :: below) {events : List (Event Tracked)}
  {result : Tracked}

include hI hstack

theorem alloca_sound {allocated : Ty} {count : Value} (hop : I.op = .alloca allocated count)
    {n : Tracked}
    (halloca : platform.tracked.alloca I.id allocated n world = some (result, next)) :
    ProceedsSoundly M world next objects below I.id result := by
  obtain ⟨object, _, heq⟩ := Option.map_eq_some_iff.mp halloca
  obtain ⟨rfl, rfl⟩ := Prod.mk.inj heq
  simp only [FlatWorld.addObject, hstack]
  refine ⟨_, rfl, fun _ h => List.mem_cons_of_mem _ h, HeapGrows.refl _, ?_, ?_⟩
  · intro ty a aty hbase _
    cases hbase with
    | here _ => exact ⟨_, List.mem_cons_self, rfl, 0, rfl⟩
    | step hnext _ => simp [getInternalPointer_inst hI, hop] at hnext
  · intro ty hredundant
    simp [isRedundant_inst hI, hop] at hredundant

/-- A step of the walk, taken at run time. -/
theorem walk_sound (hframe : FrameSound M world.heap objects frame) {internal : Value}
    {p : Tracked} (hp : frame.value platform.tracked internal = some p)
    (hop : (∃ indices, I.op = .getelementptr internal indices) ∨
      I.op = .bitcast internal ∧ internal.ty.isPtr = true)
    (hadvance : ∃ further, result = p.advance further) :
    ProceedsSoundly M world world objects below I.id result := by
  have hinternal : ∀ ty, getInternalPointer M (.inst I.id ty) = some internal :=
    fun ty => (getInternalPointer_inst hI).mpr hop
  refine .of_keeps hstack ⟨rfl, HeapGrows.refl _⟩ ⟨?_, ?_⟩
  · intro ty a aty hbase halloca
    cases hbase with
    | here hnone => simp [hinternal] at hnone
    | step hsome hrest =>
        obtain rfl := Option.some.inj ((hinternal ty).symm.trans hsome)
        obtain ⟨object, hobject, hid, offset, rfl⟩ := hframe.derived hp hrest halloca
        obtain ⟨further, rfl⟩ := hadvance
        exact ⟨object, hobject, hid, _, Tracked.advance_within object offset further⟩
  · intro ty hredundant
    rcases hop with ⟨indices, hop⟩ | ⟨hop, _⟩ <;> simp [isRedundant_inst hI, hop] at hredundant

theorem proceed_sound (hframe : FrameSound M world.heap objects frame)
    (haction : I.action platform.tracked (frame.value platform.tracked) world =
      some (events, .proceed result next)) :
    ProceedsSoundly M world next objects below I.id result := by
  cases acts_of_action haction with
  | alloca hop _ halloca => exact alloca_sound hI hstack hop halloca
  | load hop _ hload =>
      obtain ⟨rfl, rfl⟩ := Prod.mk.inj (Option.some.inj hload)
      exact .of_keeps hstack ⟨rfl, HeapGrows.refl _⟩
        (resultSound_of_untracked hI (by rw [hop]; rfl) _)
  | store hop _ _ hstore =>
      obtain rfl := Option.some.inj hstore
      exact .of_keeps hstack (world.keeps_write _ _ _)
        (resultSound_of_untracked hI (by rw [hop]; rfl) _)
  | getelementptr hop hp _ hresult =>
      obtain rfl := Option.some.inj hresult
      exact walk_sound hI hstack hframe hp (.inl ⟨_, hop⟩) ⟨_, rfl⟩
  | @bitcast src _ hop _ hp =>
      cases hptr : src.ty.isPtr with
      | true =>
          exact walk_sound hI hstack hframe hp (.inr ⟨hop, hptr⟩) ⟨0, result.advance_zero.symm⟩
      | false =>
          exact .of_keeps hstack ⟨rfl, HeapGrows.refl _⟩
            (resultSound_of_untracked hI (by rw [hop]; exact hptr) _)
  | convert hop hnoPtr _ _ =>
      have hptr := (Bool.or_eq_false_iff.mp hnoPtr).1
      exact .of_keeps hstack ⟨rfl, HeapGrows.refl _⟩
        (resultSound_of_untracked hI (by rw [hop]; exact hptr) _)
  | executes hexecuted _ hexecute =>
      exact .of_keeps hstack (Platform.tracked_execute hexecute)
        (resultSound_of_untracked hI (Op.isTracked_of_executed hexecuted) _)

end Proceed

/-! ## Frames -/

theorem bindAll_cases {env : InstId → Option Tracked} {id : InstId} {v : Tracked}
    {results : List (InstId × Tracked)} (hv : bindAll env results id = some v) :
    env id = some v ∨ ∃ result ∈ results, result.1 = id := by
  induction results generalizing env with
  | nil => exact Or.inl hv
  | cons result rest ih =>
      rcases ih hv with hhere | ⟨other, hother, hid⟩
      · by_cases heq : id = result.1
        · exact Or.inr ⟨result, List.mem_cons_self, heq.symm⟩
        · exact Or.inl (by simpa [Function.update_of_ne heq] using hhere)
      · exact Or.inr ⟨other, List.mem_cons_of_mem _ hother, hid⟩

theorem mem_of_mapM {α β : Type*} {f : α → Option β} {items : List α} {results : List β}
    (hresults : items.mapM f = some results) : ∀ b ∈ results, ∃ a ∈ items, f a = some b := by
  induction items generalizing results with
  | nil =>
      obtain rfl : [] = results := by simpa using hresults
      simp
  | cons a rest ih =>
      rw [List.mapM_cons] at hresults
      obtain ⟨first, hfirst, hrest⟩ := Option.bind_eq_some_iff.mp hresults
      obtain ⟨others, hothers, heq⟩ := Option.bind_eq_some_iff.mp hrest
      obtain rfl : first :: others = results := by simpa using heq
      intro b hb
      rcases List.mem_cons.mp hb with rfl | hb
      · exact ⟨a, List.mem_cons_self, hfirst⟩
      · obtain ⟨a', ha', hb'⟩ := ih hothers b hb
        exact ⟨a', List.mem_cons_of_mem _ ha', hb'⟩

theorem FrameSound.enter (hsound : FrameSound M heap objects frame)
    {target : BlockId} {entered : Frame Tracked}
    (henter : frame.enter platform.tracked target = some entered) :
    FrameSound M heap objects entered := by
  obtain ⟨B, hfound, hphis⟩ := Option.bind_eq_some_iff.mp henter
  obtain ⟨results, hresults, rfl⟩ := Option.map_eq_some_iff.mp hphis
  have hB : ∀ I ∈ B.insts, I ∈ M.insts := fun I hI =>
    hsound.known I (Function.mem_insts_of_block? hfound I hI)
  refine ⟨hsound.known, fun I hI => hB I ((List.dropWhile_sublist _).mem hI), ?_⟩
  intro id v hv
  rcases bindAll_cases hv with hold | ⟨result, hresult, rfl⟩
  · exact hsound.env id v hold
  · obtain ⟨I, hI, hpicked⟩ := mem_of_mapM hresults result hresult
    obtain ⟨_, _, hid⟩ := Option.map_eq_some_iff.mp hpicked
    have hphi : I.isPhi = true := List.mem_takeWhile_imp hI
    rw [← hid]
    refine resultSound_of_untracked (hB I ((List.takeWhile_sublist _).mem hI)) ?_ v
    obtain ⟨id, ty, op⟩ := I
    cases op <;> simp_all [Inst.isPhi, Op.isPhi, Op.isTracked]

theorem start_sound {F : Function} (hF : ∀ I ∈ F.insts, I ∈ M.insts) {args : List Tracked}
    (hstart : Frame.start F args = some frame) :
    FrameSound M heap objects frame := by
  obtain ⟨B, hB, rfl⟩ := Option.map_eq_some_iff.mp hstart
  refine ⟨hF, fun I hI => hF I ?_, by simp⟩
  exact List.mem_flatMap.mpr ⟨B, List.mem_of_mem_head? hB, hI⟩

theorem deliver_sound {result : Tracked}
    (hframe : FrameSound M heap objects frame)
    (hresult : ∀ I ∈ frame.rest.head?, ResultSound M objects heap I.id result)
    (hcallers : CallersSound M heap callers below)
    {frames : List (Frame Tracked)}
    (hdeliver : deliver platform.tracked result (frame :: callers) = some frames) :
    FramesSound M heap frames (objects :: below) := by
  cases hrest : frame.rest with
  | nil => simp [deliver, hrest] at hdeliver
  | cons I rest =>
      have hI : ResultSound M objects heap I.id result := hresult I (by simp [hrest])
      have htail : ∀ J ∈ rest, J ∈ M.insts := fun J hJ =>
        hframe.restKnown J (by rw [hrest]; exact List.mem_cons_of_mem I hJ)
      simp only [deliver, hrest] at hdeliver
      cases hop : I.op with
      | call callee args =>
          obtain rfl := Option.some.inj (by simpa only [hop] using hdeliver)
          exact .running ((hframe.withRest htail).bind hI) hcallers
      | invoke callee args normal landing =>
          simp only [hop] at hdeliver
          obtain ⟨entered, henter, rfl⟩ := Option.map_eq_some_iff.mp hdeliver
          exact .running ((hframe.bind hI).enter henter) hcallers
      | _ => simp [hop] at hdeliver

theorem CallersSound.deliver (hcallers : CallersSound M heap callers below)
    {result : Tracked} {frames : List (Frame Tracked)}
    (hdeliver : deliver platform.tracked result callers = some frames) :
    FramesSound M heap frames below := by
  cases hcallers with
  | outside =>
      obtain rfl : [] = frames := by simpa [Carat.deliver] using hdeliver
      exact .finished
  | waits hframe hcallers =>
      exact deliver_sound hframe.toFrameSound (fun I hI => hframe.anyResult I hI result)
        hcallers hdeliver

theorem unwind_sound {world : FlatWorld} {frames : List (Frame Tracked)}
    (hframes : FramesSound M world.heap frames world.stack)
    {next : State Tracked FlatWorld}
    (hunwind : unwind platform.tracked world frames = some next) :
    StateSound M next := by
  induction frames generalizing world with
  | nil =>
      obtain rfl : ⟨[], world⟩ = next := by simpa [unwind] using hunwind
      exact .finished
  | cons frame callers ih =>
      obtain ⟨stack, heap, bytes⟩ := world
      cases hframes with
      | @running _ _ objects below hframe hcallers =>
          have hleave : unwind platform.tracked
                (platform.tracked.leave ⟨objects :: below, heap, bytes⟩) callers = some next →
              StateSound M next := by
            intro hunwind
            exact ih (by exact hcallers.frames) hunwind
          cases hrest : frame.rest with
          | nil => exact hleave (by simpa only [unwind, hrest] using hunwind)
          | cons I rest =>
              simp only [unwind, hrest] at hunwind
              cases hop : I.op with
              | invoke callee args normal landing =>
                  simp only [hop] at hunwind
                  obtain ⟨entered, henter, rfl⟩ := Option.map_eq_some_iff.mp hunwind
                  exact .running (hframe.enter henter) hcallers
              | _ => exact hleave (by simpa only [hop] using hunwind)

/-! ## Steps and runs -/

/-- The result of a call is constrained only if the call is one of the heap's. -/
theorem call_resultSound {I : Inst} (hI : I ∈ M.insts) {interp : Interp Tracked FlatWorld}
    {value : Value → Option Tracked} {world : FlatWorld}
    {events : List (Event Tracked)} {name : String} {args : List Tracked}
    (haction : I.action interp value world = some (events, .call name args))
    {result : Tracked}
    (hheap : name = "malloc" ∨ name = "calloc" → ∃ room, result = .handed room ∧
      ∀ object ∈ room, ∃ block ∈ heap, block.toMemoryObject = object) :
    ResultSound M objects heap I.id result := by
  cases htracked : I.op.isTracked with
  | false => exact resultSound_of_untracked hI htracked result
  | true =>
      cases acts_of_action haction with
      | calls hcalled hname _ =>
          obtain ⟨called, rfl, hop, hallocator⟩ := Op.allocates_of_isTracked htracked hcalled
          obtain rfl := Option.some.inj hname
          constructor
          · intro ty a aty hbase halloca
            cases hbase with
            | here _ => simp [isAlloca_inst hI, hop] at halloca
            | step hnext _ => simp [getInternalPointer_inst hI, hop] at hnext
          · exact fun _ _ => hheap hallocator

section Step

variable (hallocators : ∀ name, name = "malloc" ∨ name = "calloc" → M.definition? name = none)

include hallocators

/-- A call of a function of the module, or of one outside. -/
theorem call_sound {world : FlatWorld} {I : Inst} {rest : List Inst}
    (hframe : FrameSound M world.heap objects frame)
    (hcallers : CallersSound M world.heap callers below)
    (hstack : world.stack = objects :: below) (hrest : frame.rest = I :: rest)
    {events : List (Event Tracked)} {name : String} {args : List Tracked}
    (haction : I.action platform.tracked (frame.value platform.tracked) world =
      some (events, .call name args)) {next : State Tracked FlatWorld}
    (hperform : perform M platform.tracked frame callers I rest world (.call name args) =
      some next) :
    StateSound M next := by
  have hI : I ∈ M.insts := hframe.restKnown I (by simp [hrest])
  have hhead : ∀ J ∈ frame.rest.head?, J = I := by
    intro J hJ
    simpa [hrest, eq_comm] using hJ
  unfold StateSound
  simp only [perform] at hperform
  cases hdefinition : M.definition? name with
  | some F =>
      simp only [hdefinition] at hperform
      obtain ⟨callee, hstart, rfl⟩ := Option.map_eq_some_iff.mp hperform
      have hnot : ¬(name = "malloc" ∨ name = "calloc") := fun h => by
        simp [hallocators name h] at hdefinition
      have hwaits : FrameWaits M world.heap objects frame := by
        refine ⟨hframe, fun J hJ result => ?_⟩
        rw [hhead J hJ]
        exact call_resultSound hI haction fun h => absurd h hnot
      have hentered : (platform.tracked.enter world).stack = [] :: objects :: below := by
        simp [Platform.tracked, Platform.interp, hstack]
      rw [hentered]
      exact .running (start_sound (M.mem_insts_of_definition? hdefinition) hstart)
        (.waits hwaits hcallers)
  | none =>
      simp only [hdefinition] at hperform
      obtain ⟨reply, hreply, hdone⟩ := Option.bind_eq_some_iff.mp hperform
      cases reply with
      | returns result world' =>
          obtain ⟨hkeeps, hheap⟩ := Platform.tracked_returns hreply
          obtain ⟨frames, hdeliver, rfl⟩ := Option.map_eq_some_iff.mp hdone
          rw [hkeeps.stack, hstack]
          refine deliver_sound (hframe.mono (fun _ h => h) hkeeps.heap) ?_
            (hcallers.mono hkeeps.heap) hdeliver
          intro J hJ
          rw [hhead J hJ]
          exact call_resultSound hI haction hheap
      | raises exception world' =>
          have hkeeps := Platform.tracked_raises hreply
          have hthrow := platform.throw_keeps exception.word world'
          have hthrown : (platform.tracked.throw exception world').stack = objects :: below :=
            hthrow.stack.trans (hkeeps.stack.trans hstack)
          refine unwind_sound ?_ hdone
          rw [hthrown]
          exact .running
            ((hframe.mono (fun _ h => h) hkeeps.heap).mono (fun _ h => h) hthrow.heap)
            ((hcallers.mono hkeeps.heap).mono hthrow.heap)

theorem perform_sound {world : FlatWorld} {I : Inst} {rest : List Inst}
    (hframe : FrameSound M world.heap objects frame)
    (hcallers : CallersSound M world.heap callers below)
    (hstack : world.stack = objects :: below) (hrest : frame.rest = I :: rest)
    {events : List (Event Tracked)} {act : Action Tracked FlatWorld}
    (haction : I.action platform.tracked (frame.value platform.tracked) world =
      some (events, act)) {next : State Tracked FlatWorld}
    (hperform : perform M platform.tracked frame callers I rest world act = some next) :
    StateSound M next := by
  have hI : I ∈ M.insts := hframe.restKnown I (by simp [hrest])
  have hleave : (platform.tracked.leave world).stack = below := by
    simp [Platform.tracked, Platform.interp, hstack]
  unfold StateSound
  cases act with
  | proceed result world' =>
      have htail : ∀ J ∈ rest, J ∈ M.insts := fun J hJ =>
        hframe.restKnown J (by rw [hrest]; exact List.mem_cons_of_mem I hJ)
      obtain rfl := Option.some.inj hperform
      obtain ⟨objects', hstack', hobjects, hheap, hresult⟩ :=
        proceed_sound hI hstack hframe haction
      rw [hstack']
      exact .running (((hframe.mono hobjects hheap).withRest htail).bind hresult)
        (hcallers.mono hheap)
  | jump target =>
      obtain ⟨entered, henter, rfl⟩ := Option.map_eq_some_iff.mp hperform
      rw [hstack]
      exact .running (hframe.enter henter) hcallers
  | call name args =>
      exact call_sound hallocators hframe hcallers hstack hrest haction hperform
  | ret result =>
      obtain ⟨frames, hdeliver, rfl⟩ := Option.map_eq_some_iff.mp hperform
      rw [hleave]
      exact hcallers.deliver hdeliver
  | raise exception =>
      have hthrow := platform.throw_keeps exception.word world
      have hbelow : (platform.tracked.leave (platform.tracked.throw exception world)).stack =
          below := by
        change (platform.throw exception.word world).stack.tail = below
        rw [hthrow.stack, hstack, List.tail_cons]
      refine unwind_sound ?_ hperform
      rw [hbelow]
      exact (hcallers.mono hthrow.heap).frames

theorem step_sound {state next : State Tracked FlatWorld}
    {events : List (Event Tracked)} (hsound : StateSound M state)
    (hstep : Steps M platform.tracked state events next) : StateSound M next := by
  obtain ⟨frame, callers, I, rest, act, hframes, hrest, haction, hperform⟩ := step_cases hstep
  unfold StateSound at hsound
  rw [hframes] at hsound
  generalize hstack : state.world.stack = stack at hsound
  cases hsound with
  | running hframe hcallers =>
      exact perform_sound hallocators hframe hcallers hstack hrest haction hperform

/-- In every state that a run reaches, walks that end at an `alloca` lead back to
its objects, and results of the heap's functions are null or blocks. -/
theorem moduleRun_sound {name : String} {args : List Tracked} {world : FlatWorld}
    {trace : List (Event Tracked)} {last : State Tracked FlatWorld}
    (hrun : ModuleRun M platform.tracked name args world trace last) :
    StateSound M last := by
  obtain ⟨F, frame, hF, hstart, hsteps⟩ := hrun
  refine hsteps.invariant (fun _ state => StateSound M state) ?_ ?_
  · exact .running (start_sound (M.mem_insts_of_definition? hF) hstart) .outside
  · intro _ _ _ _ hsound hstep
    exact step_sound hallocators hsound hstep

end Step

end Sound

/-- What the pointer of an access without a guard is. -/
inductive UnguardedPointer (M : Module) (world : FlatWorld) (ptr : Value) (v : Tracked) :
    Prop where
  -- An object which this activation's `alloca` made, and what `getelementptr`s added.
  | stack {a : InstId} {ty : Ty} {objects : List StackObject}
      {below : List (List StackObject)} {object : StackObject} {offset : ℤ} :
      BaseOf M ptr (.inst a ty) → isAlloca M (.inst a ty) = true →
        world.stack = objects :: below → object ∈ objects → object.alloca = a →
        v = .within object offset →
        (∀ width i, 0 ≤ offset → offset + (width : ℕ) ≤ object.size → i < width →
          object.Contains (v.word + BitVec.ofNat 64 i)) →
          UnguardedPointer M world ptr v
  | null : isRedundant M ptr = true → v = .handed none → UnguardedPointer M world ptr v
  -- A block which the call that is the pointer has handed out.
  | heap {block : HeapBlock} :
      isRedundant M ptr = true → block ∈ world.heap → v = .handed block.toMemoryObject →
        (∀ width i, width ≤ block.size → i < width →
          block.Contains (v.word + BitVec.ofNat 64 i)) →
          UnguardedPointer M world ptr v

theorem Instrumented.exempt_of_unguarded {M M' : Module} {before : InstId → List Inst}
    (hinst : Instrumented M M' before) {I : Inst} (hI : I ∈ M.insts) {ptr : Value} {flags : ℕ}
    (haccess : I.op.access = some (ptr, flags)) (hnone : before I.id = []) :
    Exempt M ptr := by
  by_contra hnot
  have hsequence := hinst.guarded I hI _ ⟨ptr, flags, haccess, hnot, rfl⟩
  rw [hnone] at hsequence
  cases hsequence

theorem FrameSound.unguardedPointer {M : Module} {platform : Platform} {world : FlatWorld}
    {objects : List StackObject} {below : List (List StackObject)} {frame : Frame Tracked}
    (hframe : FrameSound M world.heap objects frame) (hstack : world.stack = objects :: below)
    {ptr : Value} (hexempt : Exempt M ptr) {v : Tracked}
    (hv : frame.value platform.tracked ptr = some v) : UnguardedPointer M world ptr v := by
  obtain ⟨id, ty, rfl⟩ := hexempt.eq_inst
  rcases hexempt with ⟨base, hbase, halloca⟩ | hredundant
  · obtain ⟨A, _, ⟨aty, rfl⟩, _⟩ := isAlloca_iff.mp halloca
    obtain ⟨object, hobject, hid, offset, rfl⟩ := hframe.derived hv hbase halloca
    refine .stack hbase halloca hstack hobject hid rfl ?_
    intro width i hstart hend hi
    exact object.contains_of_offset hstart hend hi
  · obtain ⟨room, rfl, hknown⟩ := (hframe.env id v hv).heap ty hredundant
    cases room with
    | none => exact .null hredundant rfl
    | some object =>
        obtain ⟨block, hblock, rfl⟩ := hknown object rfl
        refine .heap hredundant hblock rfl fun width i hwidth hi => ?_
        have hinside := block.contains_of_offset (le_refl 0) (by omega) hi
        simpa [Tracked.handed] using hinside

/-- The next instruction is a load or store through `ptr`, which is `v` there. -/
def NextAccess {Val World : Type} (interp : Interp Val World) (state : State Val World)
    (I : Inst) (ptr : Value) (v : Val) : Prop :=
  ∃ frame callers rest flags, state.frames = frame :: callers ∧ frame.rest = I :: rest ∧
    I.op.access = some (ptr, flags) ∧ frame.value interp ptr = some v

/-- An access of a run is one of the run with origins, through the same word. -/
theorem NextAccess.exists_tracked {platform : Platform} {state : State Tracked FlatWorld}
    {I : Inst} {ptr : Value} {word : BitVec 64}
    (hnext : NextAccess platform.interp (state.map Tracked.word) I ptr word) :
    ∃ v : Tracked, v.word = word ∧ NextAccess platform.tracked state I ptr v := by
  obtain ⟨_, _, rest, flags, hframes, hrest, haccess, hword⟩ := hnext
  obtain ⟨frame, callers, hstate, rfl, rfl⟩ := List.map_eq_cons_iff.mp hframes
  rw [platform.tracked_erases.frameValue] at hword
  obtain ⟨v, hv, rfl⟩ := Option.map_eq_some_iff.mp hword
  exact ⟨v, rfl, frame, callers, rest, flags, hstate, hrest, haccess, hv⟩

/-- Every access that the pass leaves without a guard goes through a pointer which
is an object of the `alloca` at the end of its walk, plus what `getelementptr`s have
added, or which is what a call of `malloc` or `calloc` has handed out. -/
theorem runOnModule_unguarded_pointers (platform : Platform)
    {toGuardOrder allGuardsOrder : IterationOrder} {fuel : ℕ} {M M' : Module}
    (hrun : runOnModule toGuardOrder allGuardsOrder fuel M = some M')
    (hallocators : ∀ name, name = "malloc" ∨ name = "calloc" → M.definition? name = none) :
    ∃ before,
      M'.functions = (M.getOrInsertFunction "texas_guard").functions.map
        (Function.weaveInsts before) ∧
      ∀ name args world trace last, ModuleRun M platform.interp name args world trace last →
        ∃ trace' last',
          ModuleRun M platform.tracked name (args.map .plain) world trace' last' ∧
            trace'.map (Event.map Tracked.word) = trace ∧ last'.map Tracked.word = last ∧
            ∀ I ptr word, NextAccess platform.interp last I ptr word → before I.id = [] →
              ∃ v : Tracked, v.word = word ∧ NextAccess platform.tracked last' I ptr v ∧
                UnguardedPointer M last.world ptr v := by
  obtain ⟨before, hinst⟩ := runOnModule_instrumented hrun
  refine ⟨before, hinst.woven.functions, ?_⟩
  intro name args world trace last hmodule
  rw [← Tracked.map_word_plain args] at hmodule
  obtain ⟨trace', last', htracked, htrace, rfl⟩ :=
    platform.tracked_erases.exists_moduleRun hmodule
  refine ⟨trace', last', htracked, htrace, rfl, ?_⟩
  intro I ptr word hplain hnone
  obtain ⟨v, hword, hnext⟩ := hplain.exists_tracked
  refine ⟨v, hword, hnext, ?_⟩
  obtain ⟨frame, callers, rest, flags, hframes, hrest, haccess, hv⟩ := hnext
  have hsound := moduleRun_sound hallocators htracked
  unfold StateSound at hsound
  rw [hframes] at hsound
  generalize hstack : last'.world.stack = stack at hsound
  cases hsound with
  | running hframe _ =>
      have hI : I ∈ M.insts := hframe.restKnown I (by simp [hrest])
      exact hframe.unguardedPointer hstack (hinst.exempt_of_unguarded hI haccess hnone) hv

/-- A store past the end of a local, one through a null result of `malloc` and one
into a block that has been freed. -/
def funkyModule : Module where
  functions :=
    [⟨"past",
      [⟨0,
        [⟨0, .ptr (.int 32), .alloca (.int 32) (.const (.int 32 1))⟩,
          ⟨1, .ptr (.int 32), .getelementptr (.inst 0 (.ptr (.int 32))) [.const (.int 64 1)]⟩,
          ⟨2, .void, .store (.const (.int 32 7)) (.inst 1 (.ptr (.int 32)))⟩,
          ⟨3, .void, .ret none⟩]⟩]⟩,
    ⟨"null",
      [⟨0,
        [⟨4, .ptr (.int 8), .call (.function "malloc") [.const (.int 64 100)]⟩,
          ⟨5, .void, .store (.const (.int 8 7)) (.inst 4 (.ptr (.int 8)))⟩,
          ⟨6, .void, .ret none⟩]⟩]⟩,
    ⟨"freed",
      [⟨0,
        [⟨7, .ptr (.int 8), .call (.function "malloc") [.const (.int 64 8)]⟩,
          ⟨8, .void, .call (.function "free") [.inst 7 (.ptr (.int 8))]⟩,
          ⟨9, .void, .store (.const (.int 8 7)) (.inst 7 (.ptr (.int 8)))⟩,
          ⟨10, .void, .ret none⟩]⟩]⟩,
    ⟨"malloc", []⟩, ⟨"free", []⟩]
  distinct := by decide

theorem runOnModule_unguarded_pointers_funkyModule :
    ∃ trace last trace' last' I ptr, ∃ v : Tracked,
      ModuleRun funkyModule slotPlatform.interp "past" [] emptyWorld trace last ∧
        ModuleRun funkyModule slotPlatform.tracked "past" [] emptyWorld trace' last' ∧
        NextAccess slotPlatform.interp last I ptr v.word ∧
        NextAccess slotPlatform.tracked last' I ptr v ∧
        UnguardedPointer funkyModule last.world ptr v := by
  have hpass : runOnModule .inOrder .inOrder 3 funkyModule =
      some (funkyModule.getOrInsertFunction "texas_guard") := by decide +kernel
  obtain ⟨before, hfunctions, hruns⟩ := runOnModule_unguarded_pointers slotPlatform hpass (by
    rintro name (rfl | rfl) <;> decide)
  -- nothing can have been woven into a module that has not grown
  have hnone : before 2 = [] := by
    have hlength := congrArg (fun functions => (functions.flatMap Function.insts).length)
      hfunctions
    simp [Module.getOrInsertFunction, funkyModule, Function.insts, Function.weaveInsts,
      Function.mapInsts, Weaving.weave_cons] at hlength
    exact List.length_eq_zero_iff.mp (by omega)
  have hrun : ∃ trace last, ModuleRun funkyModule slotPlatform.interp "past" [] emptyWorld
      trace last ∧ ∃ I ptr word, NextAccess slotPlatform.interp last I ptr word ∧ I.id = 2 :=
    ⟨_, _, ⟨_, _, rfl, rfl, run_of_stepTimes 2 rfl⟩, _, _, _,
      ⟨_, _, _, _, rfl, rfl, rfl, rfl⟩, rfl⟩
  obtain ⟨trace, last, hmodule, I, ptr, word, hnext, hid⟩ := hrun
  obtain ⟨trace', last', htracked, _, _, haccesses⟩ := hruns _ _ _ _ _ hmodule
  obtain ⟨v, rfl, hnext', hpointer⟩ := haccesses I ptr word hnext (hid ▸ hnone)
  exact ⟨trace, last, trace', last', I, ptr, v, hmodule, htracked, hnext, hnext', hpointer⟩

/-- The address is in no object of an active frame and in no live block. -/
def FlatWorld.Misses (world : FlatWorld) (v : BitVec 64) : Prop :=
  (∀ object ∈ world.stack.flatten, ¬object.Contains v) ∧
    ∀ block ∈ world.heap, block.live = true → ¬block.Contains v

instance (world : FlatWorld) (v : BitVec 64) : Decidable (world.Misses v) :=
  inferInstanceAs (Decidable ((∀ _ ∈ _, _) ∧ ∀ _ ∈ _, _ → _))

/-- The pass inserts nothing, and each of the stores misses what it may touch. -/
theorem unguarded_stores_miss :
    runOnModule .inOrder .inOrder 3 funkyModule =
        some (funkyModule.getOrInsertFunction "texas_guard") ∧
      ∀ name ∈ ["past", "null", "freed"], ∃ trace last I ptr v,
        ModuleRun funkyModule slotPlatform.interp name [] emptyWorld trace last ∧
          NextAccess slotPlatform.interp last I ptr v ∧ last.world.Misses v := by
  refine ⟨by decide +kernel, ?_⟩
  simp only [List.mem_cons, List.not_mem_nil, or_false]
  rintro name (rfl | rfl | rfl)
  · exact ⟨_, _, _, _, _, ⟨_, _, rfl, rfl, run_of_stepTimes 2 rfl⟩,
      ⟨_, _, _, _, rfl, rfl, rfl, rfl⟩, by decide⟩
  · exact ⟨_, _, _, _, _, ⟨_, _, rfl, rfl, run_of_stepTimes 1 rfl⟩,
      ⟨_, _, _, _, rfl, rfl, rfl, rfl⟩, by decide⟩
  · exact ⟨_, _, _, _, _, ⟨_, _, rfl, rfl, run_of_stepTimes 2 rfl⟩,
      ⟨_, _, _, _, rfl, rfl, rfl, rfl⟩, by decide⟩

end Carat

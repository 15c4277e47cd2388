import Carat.FrameMatching

/-!
# The instrumented module runs like the original

Two frames match when they hold the same values on the instructions of the
original module and stand at the same original instruction.  An original step is
matched by the guard sequence, if there is one, and the same step; backwards, the
instrumented module can only be ahead by part of one guard sequence.
-/

namespace Carat

open LabelledRun Weaving

variable {Val World : Type}

def guardEvent (interp : Interp Val World) (ptr : Val) (flags : ℕ) : Event Val :=
  .call "texas_guard" [ptr, interp.const (.int 32 flags)]

/-- `texas_guard` returns and leaves the module's state alone. -/
def GuardInert (interp : Interp Val World) : Prop :=
  ∀ args world, ∃ result,
    interp.external "texas_guard" args world = some (.returns result world)

def ExemptAccess (M : Module) (id : InstId) : Prop :=
  ∃ I ∈ M.insts, I.id = id ∧ ∃ ptr flags, I.op.access = some (ptr, flags) ∧ Exempt M ptr

open Classical in
/-- An event of the original with the guard call that belongs in front of it. -/
noncomputable def withGuards (M : Module) (interp : Interp Val World)
    (event : Event Val) : List (Event Val) :=
  match event.access with
  | some (id, ptr, flags) =>
      if ExemptAccess M id then [event] else [guardEvent interp ptr flags, event]
  | none => [event]

/-! ## One instruction -/

section Action

variable {interp : Interp Val World} {value : Value → Option Val} {world : World}
  {I : Inst}

theorem withGuards_of_no_access (M : Module) (hnone : I.op.access = none)
    {events : List (Event Val)} {act : Action Val World}
    (haction : I.action interp value world = some (events, act)) :
    events.flatMap (withGuards M interp) = events := by
  cases acts_of_action haction with
  | load hop _ _ => simp [hop, Op.access] at hnone
  | store hop _ _ _ => simp [hop, Op.access] at hnone
  | _ => rfl

variable {M : Module}

theorem exemptAccess_iff (hI : I ∈ M.insts) {ptr : Value} {flags : ℕ}
    (haccess : I.op.access = some (ptr, flags)) : ExemptAccess M I.id ↔ Exempt M ptr := by
  constructor
  · rintro ⟨J, hJ, hid, ptr', flags', haccess', hexempt⟩
    obtain rfl := M.eq_of_id_eq hJ hI hid
    obtain ⟨rfl, rfl⟩ : ptr' = ptr ∧ flags' = flags := by simpa [haccess'] using haccess
    exact hexempt
  · exact fun hexempt => ⟨I, hI, rfl, ptr, flags, haccess, hexempt⟩

theorem withGuards_of_needs (hI : I ∈ M.insts) {guard : Guard}
    (hneeds : NeedsGuard M I guard) {events : List (Event Val)} {act : Action Val World}
    (haction : I.action interp value world = some (events, act)) :
    ∃ p, value guard.pointer = some p ∧
      events.flatMap (withGuards M interp) =
        guardEvent interp p guard.flags :: events := by
  obtain ⟨ptr, flags, haccess, hnot, rfl⟩ := hneeds
  have hexempt : ¬ExemptAccess M I.id := fun h => hnot ((exemptAccess_iff hI haccess).mp h)
  obtain ⟨p, event, _, _, hp, rfl, hevent, _⟩ := action_access haccess haction
  exact ⟨p, hp, by simp [withGuards, hevent, hexempt]⟩

theorem withGuards_of_free (hI : I ∈ M.insts) (hfree : ∀ guard, ¬NeedsGuard M I guard)
    {events : List (Event Val)} {act : Action Val World}
    (haction : I.action interp value world = some (events, act)) :
    events.flatMap (withGuards M interp) = events := by
  cases haccess : I.op.access with
  | none => exact withGuards_of_no_access M haccess haction
  | some access =>
      obtain ⟨ptr, flags⟩ := access
      have hexempt : ExemptAccess M I.id := by
        rw [exemptAccess_iff hI haccess]
        by_contra hnot
        exact hfree _ ⟨ptr, flags, haccess, hnot, rfl⟩
      obtain ⟨p, event, _, _, _, rfl, hevent, _⟩ := action_access haccess haction
      simp [withGuards, hevent, hexempt]

end Action

/-! ## Running a guard sequence -/

theorem NeedsGuard.pointer_mem {M : Module} {I : Inst} {guard : Guard}
    (hneeds : NeedsGuard M I guard) : guard.pointer ∈ I.op.values := by
  obtain ⟨ptr, flags, haccess, _, rfl⟩ := hneeds
  obtain ⟨id, ty, op⟩ := I
  cases op <;> simp_all [Op.access, Op.values]

section GuardSteps

variable (M' : Module) (interp : Interp Val World) {frame : Frame Val}
  (callers : List (Frame Val)) (world : World) {v : Value} {rest : List Inst}

theorem castStep {cast : InstId}
    (hrest : frame.rest = ⟨cast, voidPtrType, .bitcast v⟩ :: rest) :
    step M' interp ⟨frame :: callers, world⟩ =
      (frame.value interp v).map fun p =>
        ([], ⟨{ frame with rest := rest }.bind cast p :: callers, world⟩) := by
  cases hv : frame.value interp v with
  | none => simp [step, hrest, Inst.action, hv]
  | some p => simp [step, hrest, Inst.action, hv, voidPtrType, Ty.isPtr, perform]

theorem guardCallStep (hexternal : M'.definition? "texas_guard" = none)
    (hinert : GuardInert interp) {call : InstId} {flags : ℕ}
    (hrest : frame.rest =
      ⟨call, .void, guardCall [v, .const (.int 32 flags)]⟩ :: rest) :
    ∃ result, step M' interp ⟨frame :: callers, world⟩ =
      (frame.value interp v).map fun p =>
        ([guardEvent interp p flags],
          ⟨{ frame with rest := rest }.bind call result :: callers, world⟩) := by
  have hflags : frame.value interp (.const (.int 32 flags)) =
      some (interp.const (.int 32 flags)) := rfl
  cases hv : frame.value interp v with
  | none =>
      exact ⟨interp.unit, by
        simp [step, hrest, Inst.action, guardCall, callAction, Callee.name, hv]⟩
  | some p =>
      obtain ⟨result, hreply⟩ := hinert [p, interp.const (.int 32 flags)] world
      exact ⟨result, by
        simp [step, hrest, Inst.action, guardCall, callAction, Callee.name, hv, hflags,
          perform, hexternal, hreply, deliver, guardEvent]⟩

end GuardSteps

/-- How far the instrumented frame is ahead, and what it has shown already. -/
inductive Frame.Phase (M : Module) (before : InstId → List Inst)
    (interp : Interp Val World) (frame frame' : Frame Val) :
    List (Event Val) → Prop where
  | level : frame.Level M before frame' → Phase M before interp frame frame' []
  | cast {I : Inst} {rest : List Inst} {guard : Guard} {cast call : InstId} {p : Val} :
      frame.Follows M before frame' → (∀ J ∈ frame.rest, J ∈ M.insts) →
        frame.rest = I :: rest → NeedsGuard M I guard → M.freshId ≤ call →
        frame'.rest =
          ⟨call, .void, guardCall
            [.inst cast voidPtrType, .const (.int 32 guard.flags)]⟩ ::
            I :: weave (fun I => before I.id) rest →
        frame.value interp guard.pointer = some p → frame'.env cast = some p →
          Phase M before interp frame frame' []
  | guarded {I : Inst} {rest : List Inst} {guard : Guard} {p : Val} :
      frame.Follows M before frame' → (∀ J ∈ frame.rest, J ∈ M.insts) →
        frame.rest = I :: rest → NeedsGuard M I guard →
        frame'.rest = I :: weave (fun I => before I.id) rest →
        frame.value interp guard.pointer = some p →
          Phase M before interp frame frame' [guardEvent interp p guard.flags]

inductive State.Ahead (M : Module) (before : InstId → List Inst)
    (interp : Interp Val World) :
    List (Event Val) → State Val World → State Val World → Prop where
  | finished {world : World} : Ahead M before interp [] ⟨[], world⟩ ⟨[], world⟩
  | running {pending : List (Event Val)} {frame frame' : Frame Val}
      {callers callers' : List (Frame Val)} {world : World} :
      frame.Phase M before interp frame' pending →
        List.Forall₂ (Frame.Waits M before) callers callers' →
        Ahead M before interp pending ⟨frame :: callers, world⟩ ⟨frame' :: callers', world⟩

theorem State.Level.ahead {M : Module} {before : InstId → List Inst}
    {interp : Interp Val World} {state state' : State Val World}
    (hlevel : state.Level M before state') : State.Ahead M before interp [] state state' := by
  obtain ⟨frames, world⟩ := state
  obtain ⟨frames', world'⟩ := state'
  obtain ⟨hworld, hframes⟩ := hlevel
  obtain rfl : world' = world := hworld
  cases hframes with
  | finished => exact .finished
  | running htop hbelow => exact .running (.level htop) hbelow

section Simulation

variable {M M' : Module} {before : InstId → List Inst} (hinst : Instrumented M M' before)
  {interp : Interp Val World}

include hinst

/-- Once its guard is behind, a step of the instrumented module is one of the
original. -/
theorem original_backward {frame frame' : Frame Val} {callers callers' : List (Frame Val)}
    {world : World} {I : Inst} {rest : List Inst} (hfollows : frame.Follows M before frame')
    (hknown : ∀ J ∈ frame.rest, J ∈ M.insts) (hrest : frame.rest = I :: rest)
    (hrest' : frame'.rest = I :: weave (fun I => before I.id) rest)
    (hcallers : List.Forall₂ (Frame.Waits M before) callers callers')
    {events : List (Event Val)} {next' : State Val World}
    (hstep' : Steps M' interp ⟨frame' :: callers', world⟩ events next') :
    ∃ next act, Steps M interp ⟨frame :: callers, world⟩ events next ∧
      I.action interp (frame.value interp) world = some (events, act) ∧
      State.Ahead M before interp [] next next' := by
  have hrel := step_matches hinst interp hfollows hknown hrest hrest' hcallers world
  rw [show step M' interp ⟨frame' :: callers', world⟩ = some (events, next') from hstep'] at hrel
  obtain ⟨⟨shown, next⟩, hstep, rfl, hnext⟩ := exists_of_rel_some_right hrel
  obtain ⟨act, haction, -⟩ := step_running hrest hstep
  exact ⟨next, act, hstep, haction, hnext.ahead⟩

variable (hexternal : M.definition? "texas_guard" = none) (hinert : GuardInert interp)

include hexternal hinert

theorem guardCall_runs {frame frame' : Frame Val} (hfollows : frame.Follows M before frame')
    {call : InstId} {v : Value} {flags : ℕ} {rest : List Inst} (hcall : M.freshId ≤ call)
    (hrest' : frame'.rest = ⟨call, .void, guardCall [v, .const (.int 32 flags)]⟩ :: rest)
    {p : Val} (hv : frame'.value interp v = some p) (callers : List (Frame Val))
    (world : World) :
    ∃ frame'', Run (Steps M' interp) ⟨frame' :: callers, world⟩ [guardEvent interp p flags]
        ⟨frame'' :: callers, world⟩ ∧
      frame.Follows M before frame'' ∧ frame''.rest = rest := by
  have hexternal' : M'.definition? "texas_guard" = none := by
    rw [hinst.definition?_eq, hexternal, Option.map_none]
  obtain ⟨result, hstep⟩ := guardCallStep M' interp callers world hexternal' hinert hrest'
  rw [hv, Option.map_some] at hstep
  exact ⟨_, Run.single hstep, (hfollows.withRest _ _).bind_fresh hcall result, rfl⟩

/-- From a level frame the guard sequence runs through. -/
theorem guards_run {frame frame' : Frame Val} (hlevel : frame.Level M before frame')
    {I : Inst} {rest : List Inst} (hrest : frame.rest = I :: rest) {guard : Guard}
    (hneeds : NeedsGuard M I guard) {p : Val}
    (hp : frame.value interp guard.pointer = some p) (callers : List (Frame Val))
    (world : World) :
    ∃ frame'', Run (Steps M' interp) ⟨frame' :: callers, world⟩
        [guardEvent interp p guard.flags] ⟨frame'' :: callers, world⟩ ∧
      frame.Follows M before frame'' ∧
      frame''.rest = I :: weave (fun I => before I.id) rest := by
  have hI : I ∈ M.insts := hlevel.restKnown I (by simp [hrest])
  have hp' : frame'.value interp guard.pointer = some p := by
    rw [hlevel.value_eq interp hI _ hneeds.pointer_mem, hp]
  have hrest' := hlevel.rest
  rw [hrest, weave_cons] at hrest'
  have hsequence := hinst.guarded I hI guard hneeds
  generalize before I.id = sequence at hsequence hrest'
  cases hsequence with
  | plain _ hcall =>
      exact guardCall_runs hinst hexternal hinert hlevel.toFollows hcall hrest' hp' callers world
  | @folded call value hpointer hcall =>
      have hvalue : frame'.value interp (.const (.bitcast value voidPtrType)) = some p := by
        rw [← hp', hpointer]
        simp [Frame.value, Interp.value, Interp.const]
      exact guardCall_runs hinst hexternal hinert hlevel.toFollows hcall hrest' hvalue callers
        world
  | @cast cast call hcast hcall =>
      let middle : Frame Val := { frame' with
        rest := ⟨call, .void, guardCall
            [.inst cast voidPtrType, .const (.int 32 guard.flags)]⟩ ::
          I :: weave (fun I => before I.id) rest }.bind cast p
      have hmiddle : frame.Follows M before middle :=
        (hlevel.toFollows.withRest _ _).bind_fresh hcast p
      have hstep := castStep M' interp callers world hrest'
      rw [hp', Option.map_some] at hstep
      have hcasts : Run (Steps M' interp) ⟨frame' :: callers, world⟩ []
          ⟨middle :: callers, world⟩ := .single hstep
      have hvalue : middle.value interp (.inst cast voidPtrType) = some p :=
        Function.update_self ..
      obtain ⟨frame'', hcalls, hfollows, hrest''⟩ := guardCall_runs hinst hexternal hinert
        hmiddle hcall (show middle.rest = _ from rfl) hvalue callers world
      exact ⟨frame'', hcasts.trans hcalls, hfollows, hrest''⟩

/-- One step of the original is its guard, if it needs one, and the same step. -/
theorem step_forward {state state' next : State Val World} {events : List (Event Val)}
    (hlevel : state.Level M before state') (hstep : Steps M interp state events next) :
    ∃ next', Run (Steps M' interp) state' (events.flatMap (withGuards M interp)) next' ∧
      next.Level M before next' := by
  obtain ⟨frame, callers, I, rest, act, hframes, hrest, haction, -⟩ := step_cases hstep
  obtain ⟨frames, world⟩ := state
  obtain ⟨frames', world'⟩ := state'
  obtain ⟨hworld, hmatch⟩ := hlevel
  obtain rfl : frames = frame :: callers := hframes
  obtain rfl : world' = world := hworld
  cases hmatch with
  | @running _ frame' _ callers' htop hbelow =>
      have hI : I ∈ M.insts := htop.restKnown I (by simp [hrest])
      -- whatever stands in front of `I` in the instrumented frame, run it first
      obtain ⟨guards, frame'', hguards, hfollows, hrest'', hshown⟩ :
          ∃ guards frame'', Run (Steps M' interp) ⟨frame' :: callers', world'⟩ guards
              ⟨frame'' :: callers', world'⟩ ∧ frame.Follows M before frame'' ∧
            frame''.rest = I :: weave (fun I => before I.id) rest ∧
            events.flatMap (withGuards M interp) = guards ++ events := by
        by_cases hneeds : ∃ guard, NeedsGuard M I guard
        · obtain ⟨guard, hneeds⟩ := hneeds
          obtain ⟨p, hp, hshown⟩ := withGuards_of_needs hI hneeds haction
          obtain ⟨frame'', hrun, hfollows, hrest''⟩ := guards_run hinst hexternal hinert htop
            hrest hneeds hp callers' world'
          exact ⟨_, frame'', hrun, hfollows, hrest'', hshown⟩
        · have hfree := not_exists.mp hneeds
          refine ⟨[], frame', .nil, htop.toFollows, ?_, withGuards_of_free hI hfree haction⟩
          rw [htop.rest, hrest, weave_cons, hinst.unguarded I hI hfree, List.nil_append]
      have hrel := step_matches hinst interp hfollows htop.restKnown hrest hrest''
        hbelow world'
      rw [show step M interp ⟨frame :: callers, world'⟩ = some (events, next) from hstep] at hrel
      obtain ⟨⟨events', next'⟩, hstep', hsame, hnext⟩ := exists_of_rel_some hrel
      rw [show events' = events from hsame] at hstep'
      have hlast : Run (Steps M' interp) ⟨frame'' :: callers', world'⟩ events next' :=
        .single hstep'
      exact ⟨next', hshown ▸ hguards.trans hlast, hnext⟩

/-- A call of the guard on a value that is the pointer's. -/
theorem guardCall_backward {frame frame' : Frame Val} {callers callers' : List (Frame Val)}
    {world : World} {I : Inst} {rest : List Inst} (hfollows : frame.Follows M before frame')
    (hknown : ∀ J ∈ frame.rest, J ∈ M.insts) (hrest : frame.rest = I :: rest)
    {guard : Guard} (hneeds : NeedsGuard M I guard) {call : InstId} {v : Value}
    (hcall : M.freshId ≤ call) (hv : frame'.value interp v = frame.value interp guard.pointer)
    (hrest' : frame'.rest = ⟨call, .void, guardCall [v, .const (.int 32 guard.flags)]⟩ ::
      I :: weave (fun I => before I.id) rest)
    (hcallers : List.Forall₂ (Frame.Waits M before) callers callers')
    {events : List (Event Val)} {next' : State Val World}
    (hstep' : Steps M' interp ⟨frame' :: callers', world⟩ events next') :
    State.Ahead M before interp events ⟨frame :: callers, world⟩ next' := by
  have hexternal' : M'.definition? "texas_guard" = none := by
    rw [hinst.definition?_eq, hexternal, Option.map_none]
  obtain ⟨result, hstep⟩ := guardCallStep M' interp callers' world hexternal' hinert hrest'
  rw [hv] at hstep
  obtain ⟨p, hp, heq⟩ := Option.map_eq_some_iff.mp (hstep.symm.trans hstep')
  obtain ⟨rfl, rfl⟩ : _ ∧ _ := by simpa using heq
  exact .running (.guarded ((hfollows.withRest _ _).bind_fresh hcall result) hknown hrest
    hneeds rfl hp) hcallers

/-- The first step of a guard sequence. -/
theorem sequence_backward {frame frame' : Frame Val} {callers callers' : List (Frame Val)}
    {world : World} {I : Inst} {rest : List Inst} (hlevel : frame.Level M before frame')
    (hrest : frame.rest = I :: rest) {guard : Guard} (hneeds : NeedsGuard M I guard)
    (hcallers : List.Forall₂ (Frame.Waits M before) callers callers')
    {events : List (Event Val)} {next' : State Val World}
    (hstep' : Steps M' interp ⟨frame' :: callers', world⟩ events next') :
    State.Ahead M before interp events ⟨frame :: callers, world⟩ next' := by
  have hI : I ∈ M.insts := hlevel.restKnown I (by simp [hrest])
  have hpointer := hlevel.value_eq interp hI _ hneeds.pointer_mem
  have hrest' := hlevel.rest
  rw [hrest, weave_cons] at hrest'
  have hsequence := hinst.guarded I hI guard hneeds
  generalize before I.id = sequence at hsequence hrest'
  cases hsequence with
  | plain _ hcall =>
      exact guardCall_backward hinst hexternal hinert hlevel.toFollows hlevel.restKnown hrest
        hneeds hcall hpointer hrest' hcallers hstep'
  | @folded call value hvalue hcall =>
      have hcast : frame'.value interp (.const (.bitcast value voidPtrType)) =
          frame.value interp guard.pointer := by
        rw [← hpointer, hvalue]
        simp [Frame.value, Interp.value, Interp.const]
      exact guardCall_backward hinst hexternal hinert hlevel.toFollows hlevel.restKnown hrest
        hneeds hcall hcast hrest' hcallers hstep'
  | @cast cast call hcast hcall =>
      have hstep := castStep M' interp callers' world hrest'
      rw [hpointer] at hstep
      obtain ⟨p, hp, heq⟩ := Option.map_eq_some_iff.mp (hstep.symm.trans hstep')
      obtain ⟨rfl, rfl⟩ : _ ∧ _ := by simpa using heq
      exact .running (.cast ((hlevel.toFollows.withRest _ _).bind_fresh hcast p)
        hlevel.restKnown hrest hneeds hcall rfl hp (Function.update_self ..)) hcallers

/-- One step of the instrumented module is part of a guard sequence or a step of
the original. -/
theorem step_backward {pending events' : List (Event Val)}
    {state state' next' : State Val World}
    (hahead : State.Ahead M before interp pending state state')
    (hstep' : Steps M' interp state' events' next') :
    State.Ahead M before interp (pending ++ events') state next' ∨
      ∃ next, Steps M interp state events' next ∧
        events'.flatMap (withGuards M interp) = pending ++ events' ∧
        State.Ahead M before interp [] next next' := by
  cases hahead with
  | finished => simp [Steps, step] at hstep'
  | @running _ frame frame' callers callers' world hphase hcallers =>
      cases hphase with
      | level hlevel =>
          have hrest' := hlevel.rest
          cases hrest : frame.rest with
          | nil =>
              rw [hrest, weave_nil] at hrest'
              simp [Steps, step, hrest'] at hstep'
          | cons I rest =>
              have hI : I ∈ M.insts := hlevel.restKnown I (by simp [hrest])
              by_cases hneeds : ∃ guard, NeedsGuard M I guard
              · obtain ⟨guard, hneeds⟩ := hneeds
                exact Or.inl (sequence_backward hinst hexternal hinert hlevel hrest hneeds
                  hcallers hstep')
              · have hfree := not_exists.mp hneeds
                rw [hrest, weave_cons, hinst.unguarded I hI hfree, List.nil_append] at hrest'
                obtain ⟨next, act, hstep, haction, hnext⟩ := original_backward hinst
                  hlevel.toFollows hlevel.restKnown hrest hrest' hcallers hstep'
                exact Or.inr ⟨next, hstep, withGuards_of_free hI hfree haction, hnext⟩
      | @cast I rest guard cast call p hfollows hknown hrest hneeds hcall hrest' hp henv =>
          have hv : frame'.value interp (.inst cast voidPtrType) =
              frame.value interp guard.pointer := henv.trans hp.symm
          exact Or.inl (guardCall_backward hinst hexternal hinert hfollows hknown hrest hneeds
            hcall hv hrest' hcallers hstep')
      | @guarded I rest guard p hfollows hknown hrest hneeds hrest' hp =>
          have hI : I ∈ M.insts := hknown I (by simp [hrest])
          obtain ⟨next, act, hstep, haction, hnext⟩ :=
            original_backward hinst hfollows hknown hrest hrest' hcallers hstep'
          obtain ⟨p', hp', hshown⟩ := withGuards_of_needs hI hneeds haction
          obtain rfl : p' = p := by simpa [hp] using hp'.symm
          exact Or.inr ⟨next, hstep, hshown, hnext⟩

end Simulation

/-! ## Whole runs -/

/-- What the instrumented module has shown beyond the original: nothing, or the
guard of the instruction that comes next. -/
def Pending (M : Module) (interp : Interp Val World) (last : State Val World)
    (pending : List (Event Val)) : Prop :=
  pending = [] ∨
    ∃ frame callers I rest guard p, last.frames = frame :: callers ∧
      frame.rest = I :: rest ∧ NeedsGuard M I guard ∧
      frame.value interp guard.pointer = some p ∧
      pending = [guardEvent interp p guard.flags]

/-- Every run of `M` is a run of `M'` with the guard calls put in, and every run
of `M'` is one of these, perhaps cut off after a guard call. -/
structure RunsWithGuards (M M' : Module) (interp : Interp Val World) : Prop where
  forward : ∀ name args world trace last, ModuleRun M interp name args world trace last →
    ∃ last', ModuleRun M' interp name args world
        (trace.flatMap (withGuards M interp)) last' ∧
      last'.world = last.world ∧ (last'.frames = [] ↔ last.frames = [])
  backward : ∀ name args world trace' last',
    ModuleRun M' interp name args world trace' last' →
      ∃ trace last pending, ModuleRun M interp name args world trace last ∧
        trace' = trace.flatMap (withGuards M interp) ++ pending ∧
        Pending M interp last pending ∧
        last'.world = last.world ∧ (last'.frames = [] ↔ last.frames = [])

theorem State.Level.frames_nil_iff {M : Module} {before : InstId → List Inst}
    {state state' : State Val World} (hlevel : state.Level M before state') :
    state'.frames = [] ↔ state.frames = [] := by
  obtain ⟨frames, world⟩ := state
  obtain ⟨frames', world'⟩ := state'
  obtain ⟨_, hframes⟩ := hlevel
  cases hframes <;> simp

theorem State.Ahead.spec {M : Module} {before : InstId → List Inst}
    {interp : Interp Val World} {pending : List (Event Val)} {state state' : State Val World}
    (hahead : State.Ahead M before interp pending state state') :
    Pending M interp state pending ∧ state'.world = state.world ∧
      (state'.frames = [] ↔ state.frames = []) := by
  cases hahead with
  | finished => exact ⟨Or.inl rfl, rfl, Iff.rfl⟩
  | running hphase _ =>
      refine ⟨?_, rfl, by simp⟩
      cases hphase with
      | level _ => exact Or.inl rfl
      | cast _ _ _ _ _ _ _ _ => exact Or.inl rfl
      | guarded _ _ hrest hneeds _ hp =>
          exact Or.inr ⟨_, _, _, _, _, _, rfl, hrest, hneeds, hp, rfl⟩

theorem Instrumented.runsWithGuards {M M' : Module} {before : InstId → List Inst}
    (hinst : Instrumented M M' before) (hexternal : M.definition? "texas_guard" = none)
    {interp : Interp Val World} (hinert : GuardInert interp) :
    RunsWithGuards M M' interp where
  forward := by
    rintro name args world trace last ⟨F, frame, hF, hframe, hrun⟩
    have hrel := Frame.start_matches before (M.mem_insts_of_definition? hF) args
    rw [hframe] at hrel
    obtain ⟨frame', hframe', hlevel⟩ := exists_of_rel_some hrel
    have hstart : State.Level M before ⟨[frame], interp.enter world⟩
        ⟨[frame'], interp.enter world⟩ := ⟨rfl, .running hlevel .nil⟩
    obtain ⟨last', hrun', hlast⟩ := hrun.simulate
      (fun _ _ _ _ hlevel hstep => step_forward hinst hexternal hinert hlevel hstep) hstart
    exact ⟨last', ⟨_, frame', by rw [hinst.definition?_eq, hF, Option.map_some], hframe', hrun'⟩,
      hlast.world, hlast.frames_nil_iff⟩
  backward := by
    rintro name args world trace' last' ⟨F', frame', hF', hframe', hrun'⟩
    rw [hinst.definition?_eq] at hF'
    obtain ⟨F, hF, rfl⟩ := Option.map_eq_some_iff.mp hF'
    have hrel := Frame.start_matches before (M.mem_insts_of_definition? hF) args
    rw [hframe'] at hrel
    obtain ⟨frame, hframe, hlevel⟩ := exists_of_rel_some_right hrel
    have hstart : State.Level M before ⟨[frame], interp.enter world⟩
        ⟨[frame'], interp.enter world⟩ := ⟨rfl, .running hlevel .nil⟩
    obtain ⟨trace, last, pending, hrun, htrace, hahead⟩ := hrun'.reflect
      (by
        intro _ _ _ events' _ hahead hstep
        have hnext := step_backward hinst hexternal hinert hahead hstep
        exact hnext.imp_right fun hnext => ⟨events', hnext⟩)
      hstart.ahead
    exact ⟨trace, last, pending, ⟨F, frame, hF, hframe, hrun⟩, htrace, hahead.spec⟩

/-! ## Erasing what was inserted -/

def Inst.isInserted (bound : InstId) (I : Inst) : Bool :=
  decide (bound ≤ I.id) &&
    match I.op with
    | .bitcast _ => true
    | .call (.function name) _ => name == "texas_guard"
    | _ => false

theorem GuardSequence.isInserted {bound : InstId} {guard : Guard} {sequence : List Inst}
    (hsequence : GuardSequence bound guard sequence) :
    ∀ J ∈ sequence, J.isInserted bound = true := by
  cases hsequence <;> simp_all [Inst.isInserted, guardCall]

def Module.erase (M : Module) (erased : Inst → Bool) : List Function :=
  M.functions.map (Function.mapInsts (List.filter fun I => !erased I))

theorem Instrumented.erase_eq {M M' : Module} {before : InstId → List Inst}
    (hinst : Instrumented M M' before) :
    M'.erase (Inst.isInserted M.freshId) =
      (M.getOrInsertFunction "texas_guard").functions := by
  have hkeep : ∀ I ∈ M.insts, (!I.isInserted M.freshId) = true := by
    intro I hI
    have hlt := M.id_lt_freshId hI
    simp [Inst.isInserted, Nat.not_le.mpr hlt]
  have hdrop : ∀ I ∈ M.insts, ∀ J ∈ before I.id, (!J.isInserted M.freshId) = false := by
    intro I hI J hJ
    by_cases hneeds : ∃ guard, NeedsGuard M I guard
    · obtain ⟨guard, hneeds⟩ := hneeds
      simp [(hinst.guarded I hI guard hneeds).isInserted J hJ]
    · rw [hinst.unguarded I hI (not_exists.mp hneeds)] at hJ
      simp at hJ
  unfold Module.erase
  rw [hinst.woven.functions, List.map_map]
  refine (List.map_congr_left fun F hF => ?_).trans (List.map_id _)
  have hmem : ∀ B ∈ F.blocks, ∀ I ∈ B.insts, I ∈ M.insts := by
    intro B hB I hI
    rw [← M.insts_getOrInsertFunction "texas_guard"]
    exact List.mem_flatMap.mpr ⟨F, hF, List.mem_flatMap.mpr ⟨B, hB, hI⟩⟩
  obtain ⟨name, blocks⟩ := F
  simp only [Function.comp_apply, Function.mapInsts, Function.weaveInsts, List.map_map, id_eq,
    Function.mk.injEq, true_and]
  refine (List.map_congr_left fun B hB => ?_).trans (List.map_id _)
  simp only [Function.comp_apply, id_eq]
  rw [filter_weave (fun I hI => hkeep I (hmem B hB I hI))
    fun I hI => hdrop I (hmem B hB I hI)]

/-- Exact instrumentation: the inserted calls and casts can be erased, and every
run has one guard call in front of every access that is not exempt, and no other. -/
structure ExactlyGuarded (M M' : Module) : Prop where
  erased : M'.erase (Inst.isInserted M.freshId) =
    (M.getOrInsertFunction "texas_guard").functions
  runs : ∀ {Val World : Type} (interp : Interp Val World), GuardInert interp →
    RunsWithGuards M M' interp

/-- The pass terminates and instruments exactly, for all traversal orders. -/
theorem runOnModule_exact (toGuardOrder allGuardsOrder : IterationOrder) {M : Module}
    (hwalks : M.WalksEnd) (hexternal : M.definition? "texas_guard" = none) :
    ∃ bound, ∀ fuel, bound ≤ fuel →
      ∃ M', runOnModule toGuardOrder allGuardsOrder fuel M = some M' ∧
        ExactlyGuarded M M' := by
  obtain ⟨bound, hbound⟩ := runOnModule_total toGuardOrder allGuardsOrder hwalks
  refine ⟨bound, fun fuel hfuel => ?_⟩
  obtain ⟨M', hM'⟩ := hbound fuel hfuel
  obtain ⟨before, hinst⟩ := runOnModule_instrumented hM'
  exact ⟨M', hM', hinst.erase_eq, fun interp hinert =>
    hinst.runsWithGuards hexternal hinert⟩

/-- A store to a local through a `getelementptr`, then a load through the first
argument and a store through the second. -/
def clientModule : Module where
  functions :=
    [⟨"client",
      [⟨0,
        [⟨0, .ptr (.int 64), .alloca (.int 64) (.const (.int 32 1))⟩,
          ⟨1, .ptr (.int 64), .getelementptr (.inst 0 (.ptr (.int 64))) [.const (.int 64 0)]⟩,
          ⟨2, .void, .store (.const (.int 64 7)) (.inst 1 (.ptr (.int 64)))⟩,
          ⟨3, .int 8, .load (.arg 0 (.ptr (.int 8)))⟩,
          ⟨4, .void, .store (.inst 3 (.int 8)) (.arg 1 (.ptr (.int 64)))⟩,
          ⟨5, .void, .ret none⟩]⟩]⟩]
  distinct := by decide

example : (runOnModule .inOrder .inOrder 3 clientModule).map Module.functions =
    some
      [⟨"client",
        [⟨0,
          [⟨0, .ptr (.int 64), .alloca (.int 64) (.const (.int 32 1))⟩,
            ⟨1, .ptr (.int 64), .getelementptr (.inst 0 (.ptr (.int 64))) [.const (.int 64 0)]⟩,
            ⟨2, .void, .store (.const (.int 64 7)) (.inst 1 (.ptr (.int 64)))⟩,
            ⟨6, .void, guardCall [.arg 0 (.ptr (.int 8)), .const (.int 32 1)]⟩,
            ⟨3, .int 8, .load (.arg 0 (.ptr (.int 8)))⟩,
            ⟨7, .ptr (.int 8), .bitcast (.arg 1 (.ptr (.int 64)))⟩,
            ⟨8, .void, guardCall [.inst 7 (.ptr (.int 8)), .const (.int 32 2)]⟩,
            ⟨4, .void, .store (.inst 3 (.int 8)) (.arg 1 (.ptr (.int 64)))⟩,
            ⟨5, .void, .ret none⟩]⟩]⟩,
        ⟨"texas_guard", []⟩] := by
  decide +kernel

theorem runOnModule_exact_clientModule :
    ∃ bound, ∀ fuel, bound ≤ fuel →
      ∃ M', runOnModule .inOrder .inOrder fuel clientModule = some M' ∧
        ExactlyGuarded clientModule M' :=
  runOnModule_exact .inOrder .inOrder (.of_fuel 3 (by decide)) (by decide)

end Carat

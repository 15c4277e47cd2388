import Carat.GuardInsertion
import Carat.ModuleRun

/-!
# Frames of the original and of the instrumented module

Two frames match when they hold the same values on the instructions of the
original module and run a function and its woven copy.  Entering blocks,
returning and unwinding preserve this, so an instruction of the original does the
same on both sides.
-/

namespace Carat

open Weaving

variable {Val World : Type}

theorem rel_map {α α' β β' : Type*} {R : α → α' → Prop} {S : β → β' → Prop}
    {x : Option α} {x' : Option α'} {f : α → β} {f' : α' → β'}
    (hx : Option.Rel R x x') (hf : ∀ a a', R a a' → S (f a) (f' a')) :
    Option.Rel S (x.map f) (x'.map f') := by
  cases hx with
  | none => exact .none
  | some hrel => exact .some (hf _ _ hrel)

theorem exists_of_rel_some {α α' : Type*} {R : α → α' → Prop} {a : α} {x' : Option α'}
    (hrel : Option.Rel R (some a) x') : ∃ a', x' = some a' ∧ R a a' := by
  cases hrel with
  | some h => exact ⟨_, rfl, h⟩

theorem exists_of_rel_some_right {α α' : Type*} {R : α → α' → Prop} {x : Option α} {a' : α'}
    (hrel : Option.Rel R x (some a')) : ∃ a, x = some a ∧ R a a' := by
  cases hrel with
  | some h => exact ⟨_, rfl, h⟩

theorem bindAll_congr {env env' : InstId → Option Val} {id : InstId}
    (results : List (InstId × Val)) (hsame : env' id = env id) :
    bindAll env' results id = bindAll env results id := by
  induction results generalizing env env' with
  | nil => exact hsame
  | cons result rest ih =>
      apply ih
      by_cases heq : id = result.1
      · simp [heq]
      · simp [Function.update_of_ne heq, hsame]

def Event.access : Event Val → Option (InstId × Val × ℕ)
  | .load id ptr => some (id, ptr, texasGuardLoad)
  | .store id ptr _ => some (id, ptr, texasGuardStore)
  | _ => none

theorem action_access {interp : Interp Val World} {value : Value → Option Val}
    {world : World} {I : Inst} {ptr : Value} {flags : ℕ}
    (haccess : I.op.access = some (ptr, flags)) {events : List (Event Val)}
    {act : Action Val World} (haction : I.action interp value world = some (events, act)) :
    ∃ p event result world', value ptr = some p ∧ events = [event] ∧
      event.access = some (I.id, p, flags) ∧ act = .proceed result world' := by
  cases acts_of_action haction with
  | load hop hp _ =>
      obtain ⟨rfl, rfl⟩ : _ ∧ texasGuardLoad = flags := by simpa [hop, Op.access] using haccess
      exact ⟨_, _, _, _, hp, rfl, rfl, rfl⟩
  | store hop _ hp _ =>
      obtain ⟨rfl, rfl⟩ : _ ∧ texasGuardStore = flags := by simpa [hop, Op.access] using haccess
      exact ⟨_, _, _, _, hp, rfl, rfl, rfl⟩
  | executes hexecuted _ _ => cases hop : I.op <;> simp [hop, Op.access, Op.executed] at *
  | calls hcalled _ _ => cases hop : I.op <;> simp [hop, Op.access, Op.called] at *
  | alloca hop _ _ | getelementptr hop _ _ _ | bitcast hop _ _ | convert hop _ _ _
  | branch hop _ | ret hop | resume hop => simp [hop, Op.access] at haccess

/-! ## What the pass leaves alone -/

namespace Instrumented

variable {M M' : Module} {before : InstId → List Inst} (hinst : Instrumented M M' before)

include hinst

theorem definition?_eq (name : String) :
    M'.definition? name = (M.definition? name).map (Function.weaveInsts before) := by
  have hdeclared : (M.getOrInsertFunction "texas_guard").definition? name =
      M.definition? name := by
    unfold Module.definition? Module.getOrInsertFunction
    split
    · rfl
    · simp [List.find?_append]
  rw [← hdeclared]
  unfold Module.definition?
  rw [hinst.woven.functions, List.find?_map]
  congr 2
  funext F
  simp [Function.weaveInsts, Function.mapInsts]

end Instrumented

/-! ## Matching frames -/

structure Frame.Follows (M : Module) (before : InstId → List Inst)
    (frame frame' : Frame Val) : Prop where
  known : ∀ I ∈ frame.function.insts, I ∈ M.insts
  function : frame'.function = frame.function.weaveInsts before
  block : frame'.block = frame.block
  args : frame'.args = frame.args
  env : ∀ id, id < M.freshId → frame'.env id = frame.env id

/-- Both frames stand in front of the same instruction, guards still to come. -/
structure Frame.Level (M : Module) (before : InstId → List Inst)
    (frame frame' : Frame Val) : Prop extends Frame.Follows M before frame frame' where
  restKnown : ∀ I ∈ frame.rest, I ∈ M.insts
  rest : frame'.rest = weave (fun I => before I.id) frame.rest

structure Frame.Waits (M : Module) (before : InstId → List Inst)
    (frame frame' : Frame Val) : Prop extends Frame.Level M before frame frame' where
  calls : ∀ I ∈ frame.rest.head?, I.op.access = none

section Matching

variable {M M' : Module} {before : InstId → List Inst}
  {frame frame' : Frame Val} {interp : Interp Val World}

theorem Frame.Follows.value_eq (hfollows : frame.Follows M before frame')
    (interp : Interp Val World) {I : Inst} (hI : I ∈ M.insts) :
    ∀ v ∈ I.op.values, frame'.value interp v = frame.value interp v := by
  intro v hv
  cases v with
  | inst id ty => exact hfollows.env id (M.value_lt_freshId hI hv)
  | arg index ty => simp [Frame.value, Interp.value, hfollows.args]
  | const value => rfl

theorem Frame.Follows.bind (hfollows : frame.Follows M before frame') (id : InstId)
    (result : Val) : (frame.bind id result).Follows M before (frame'.bind id result) where
  known := hfollows.known
  function := hfollows.function
  block := hfollows.block
  args := hfollows.args
  env := by
    intro other hother
    by_cases heq : other = id
    · subst other
      simp [Frame.bind]
    · simp only [Frame.bind, Function.update_of_ne heq]
      exact hfollows.env other hother

/-- What a guard sequence computes is nothing the original looks at. -/
theorem Frame.Follows.bind_fresh (hfollows : frame.Follows M before frame') {id : InstId}
    (hid : M.freshId ≤ id) (result : Val) :
    frame.Follows M before (frame'.bind id result) where
  known := hfollows.known
  function := hfollows.function
  block := hfollows.block
  args := hfollows.args
  env := by
    intro other hother
    simp only [Frame.bind, Function.update_of_ne (hother.trans_le hid).ne]
    exact hfollows.env other hother

theorem Frame.Follows.withRest (hfollows : frame.Follows M before frame')
    (rest rest' : List Inst) :
    Frame.Follows M before { frame with rest := rest } { frame' with rest := rest' } where
  known := hfollows.known
  function := hfollows.function
  block := hfollows.block
  args := hfollows.args
  env := hfollows.env

theorem Frame.Follows.advance (hfollows : frame.Follows M before frame') {I : Inst}
    {rest : List Inst} (hknown : ∀ J ∈ rest, J ∈ M.insts) (result : Val) :
    Frame.Level M before ({ frame with rest := rest }.bind I.id result)
      ({ frame' with rest := weave (fun I => before I.id) rest }.bind I.id result) where
  toFollows := (hfollows.withRest rest (weave (fun I => before I.id) rest)).bind I.id result
  restKnown := hknown
  rest := rfl

theorem Frame.start_matches (before : InstId → List Inst) {F : Function}
    (hF : ∀ I ∈ F.insts, I ∈ M.insts) (args : List Val) :
    Option.Rel (Frame.Level M before) (Frame.start F args)
      (Frame.start (F.weaveInsts before) args) := by
  obtain ⟨name, blocks⟩ := F
  cases blocks with
  | nil => exact .none
  | cons B rest =>
      refine .some ⟨⟨hF, rfl, rfl, rfl, fun _ _ => rfl⟩, ?_, rfl⟩
      exact fun I hI => hF I (List.mem_flatMap.mpr ⟨B, List.mem_cons_self, hI⟩)

/-- Stacks of frames that match, the running frame on top. -/
inductive FramesLevel (M : Module) (before : InstId → List Inst) :
    List (Frame Val) → List (Frame Val) → Prop where
  | finished : FramesLevel M before [] []
  | running {top top' : Frame Val} {below below' : List (Frame Val)} :
      top.Level M before top' → List.Forall₂ (Frame.Waits M before) below below' →
        FramesLevel M before (top :: below) (top' :: below')

structure State.Level (M : Module) (before : InstId → List Inst)
    (state state' : State Val World) : Prop where
  world : state'.world = state.world
  frames : FramesLevel M before state.frames state'.frames

variable (hinst : Instrumented M M' before)

include hinst

theorem Frame.Follows.enter (hfollows : frame.Follows M before frame') (target : BlockId) :
    Option.Rel (Frame.Level M before) (frame.enter interp target)
      (frame'.enter interp target) := by
  have hblock : frame'.function.block? target = (frame.function.block? target).map
      fun B => { B with insts := weave (fun I => before I.id) B.insts } := by
    rw [hfollows.function]
    simp only [Function.block?, Function.weaveInsts, Function.mapInsts, List.find?_map]
    rfl
  unfold Frame.enter
  rw [hblock]
  cases hfound : frame.function.block? target with
  | none => exact .none
  | some B =>
      have hB : ∀ I ∈ B.insts, I ∈ M.insts := fun I hI =>
        hfollows.known I (Function.mem_insts_of_block? hfound I hI)
      have hphis : ∀ I ∈ B.insts, I.isPhi = true → before I.id = [] := by
        intro I hI hphi
        apply hinst.before_of_no_access (hB I hI)
        obtain ⟨id, ty, op⟩ := I
        cases op <;> simp_all [Inst.isPhi, Op.isPhi, Op.access]
      obtain ⟨htake, hdrop⟩ := span_weave hphis fun I hI => hinst.isPhi_before (hB I hI)
      have hresults : phiResults (frame'.value interp) frame'.block
            (B.insts.takeWhile Inst.isPhi) =
          phiResults (frame.value interp) frame.block (B.insts.takeWhile Inst.isPhi) := by
        refine mapM_option_congr fun I hI => ?_
        have hvalues := hfollows.value_eq interp
          (hB I ((List.takeWhile_sublist _).mem hI))
        rw [hfollows.block]
        cases hincoming : I.incoming frame.block with
        | none => rfl
        | some v => simp [hvalues v (Inst.incoming_mem hincoming)]
      simp only [Option.map_some, Option.bind_some, htake, hdrop, hresults]
      cases phiResults (frame.value interp) frame.block (B.insts.takeWhile Inst.isPhi) with
      | none => exact .none
      | some results =>
          refine .some ⟨⟨hfollows.known, hfollows.function, rfl, hfollows.args, ?_⟩, ?_, rfl⟩
          · intro id hid
            exact bindAll_congr results (hfollows.env id hid)
          · exact fun I hI => hB I ((List.dropWhile_sublist _).mem hI)

theorem Frame.Waits.rest_cons (hwaits : frame.Waits M before frame') {I : Inst}
    {rest : List Inst} (hrest : frame.rest = I :: rest) :
    frame'.rest = I :: weave (fun I => before I.id) rest := by
  have hI : I ∈ M.insts := hwaits.restKnown I (by simp [hrest])
  have hnone : I.op.access = none := hwaits.calls I (by simp [hrest])
  rw [hwaits.rest, hrest, weave_cons, hinst.before_of_no_access hI hnone, List.nil_append]

theorem deliver_matches {callers callers' : List (Frame Val)}
    (hcallers : List.Forall₂ (Frame.Waits M before) callers callers') (result : Val) :
    Option.Rel (FramesLevel M before) (deliver interp result callers)
      (deliver interp result callers') := by
  cases hcallers with
  | nil => exact .some .finished
  | @cons caller caller' below below' hwaits hbelow =>
      cases hrest : caller.rest with
      | nil =>
          have hrest' : caller'.rest = [] := by rw [hwaits.rest, hrest, weave_nil]
          simp only [deliver, hrest, hrest']
          exact .none
      | cons I rest =>
          have hrest' := hwaits.rest_cons hinst hrest
          have hknown : ∀ J ∈ rest, J ∈ M.insts := fun J hJ =>
            hwaits.restKnown J (by rw [hrest]; exact List.mem_cons_of_mem I hJ)
          simp only [deliver, hrest, hrest']
          cases hop : I.op with
          | call callee args => exact .some (.running (hwaits.advance hknown result) hbelow)
          | invoke callee args normal landing =>
              exact rel_map ((hwaits.bind I.id result).enter hinst normal)
                fun top top' hlevel => .running hlevel hbelow
          | _ => exact .none

theorem unwind_matches {callers callers' : List (Frame Val)}
    (hcallers : List.Forall₂ (Frame.Waits M before) callers callers') (world : World) :
    Option.Rel (State.Level M before) (unwind interp world callers)
      (unwind interp world callers') := by
  induction hcallers generalizing world with
  | nil => exact .some ⟨rfl, .finished⟩
  | @cons caller caller' below below' hwaits hbelow ih =>
      cases hrest : caller.rest with
      | nil =>
          have hrest' : caller'.rest = [] := by rw [hwaits.rest, hrest, weave_nil]
          simp only [unwind, hrest, hrest']
          exact ih _
      | cons I rest =>
          have hrest' := hwaits.rest_cons hinst hrest
          simp only [unwind, hrest, hrest']
          cases hop : I.op with
          | invoke callee args normal landing =>
              exact rel_map (hwaits.toFollows.enter hinst landing)
                fun top top' hlevel => ⟨rfl, .running hlevel hbelow⟩
          | _ => exact ih _

theorem perform_matches (hfollows : frame.Follows M before frame') {I : Inst}
    {rest : List Inst} (hknown : ∀ J ∈ frame.rest, J ∈ M.insts)
    (hrest : frame.rest = I :: rest)
    (hrest' : frame'.rest = I :: weave (fun I => before I.id) rest)
    {callers callers' : List (Frame Val)}
    (hcallers : List.Forall₂ (Frame.Waits M before) callers callers')
    {value : Value → Option Val} {world : World} {events : List (Event Val)}
    {act : Action Val World} (haction : I.action interp value world = some (events, act)) :
    Option.Rel (State.Level M before) (perform M interp frame callers I rest world act)
      (perform M' interp frame' callers' I (weave (fun I => before I.id) rest) world act) := by
  have htail : ∀ J ∈ rest, J ∈ M.insts := fun J hJ =>
    hknown J (by rw [hrest]; exact List.mem_cons_of_mem I hJ)
  -- only a load or store can have a guard in front, and these proceed
  have hwaits : (∀ result world, act ≠ .proceed result world) →
      frame.Waits M before frame' := by
    intro hact
    have hnone : I.op.access = none := by
      rw [Option.eq_none_iff_forall_not_mem]
      rintro ⟨ptr, flags⟩ haccess
      obtain ⟨_, _, result, world', _, _, _, hproceed⟩ := action_access haccess haction
      exact hact result world' hproceed
    have hempty := hinst.before_of_no_access (hknown I (by simp [hrest])) hnone
    refine ⟨⟨hfollows, hknown, ?_⟩, ?_⟩
    · rw [hrest', hrest, weave_cons, hempty, List.nil_append]
    · simpa [hrest] using hnone
  cases act with
  | proceed result world => exact .some ⟨rfl, .running (hfollows.advance htail result) hcallers⟩
  | jump target =>
      exact rel_map (hfollows.enter hinst target)
        fun top top' hlevel => ⟨rfl, .running hlevel hcallers⟩
  | call name args =>
      have hwaiting := List.Forall₂.cons (hwaits (by simp)) hcallers
      simp only [perform, hinst.definition?_eq]
      cases hdefinition : M.definition? name with
      | some F =>
          exact rel_map (Frame.start_matches before (M.mem_insts_of_definition? hdefinition) args)
            fun top top' hlevel => ⟨rfl, .running hlevel hwaiting⟩
      | none =>
          simp only [Option.map_none]
          cases interp.external name args world with
          | none => exact .none
          | some reply =>
              cases reply with
              | returns result world =>
                  exact rel_map (deliver_matches hinst hwaiting result)
                    fun frames frames' hframes => ⟨rfl, hframes⟩
              | raises exception world => exact unwind_matches hinst hwaiting _
  | ret result =>
      exact rel_map (deliver_matches hinst hcallers result)
        fun frames frames' hframes => ⟨rfl, hframes⟩
  | raise exception => exact unwind_matches hinst hcallers _

/-- With the guards out of the way, one step is one step. -/
theorem step_matches (interp : Interp Val World) (hfollows : frame.Follows M before frame')
    {I : Inst} {rest : List Inst} (hknown : ∀ J ∈ frame.rest, J ∈ M.insts)
    (hrest : frame.rest = I :: rest)
    (hrest' : frame'.rest = I :: weave (fun I => before I.id) rest)
    {callers callers' : List (Frame Val)}
    (hcallers : List.Forall₂ (Frame.Waits M before) callers callers') (world : World) :
    Option.Rel (fun shown shown' => shown'.1 = shown.1 ∧ shown.2.Level M before shown'.2)
      (step M interp ⟨frame :: callers, world⟩)
      (step M' interp ⟨frame' :: callers', world⟩) := by
  have hvalues := hfollows.value_eq interp (hknown I (by simp [hrest]))
  simp only [step, hrest, hrest', action_congr hvalues]
  cases haction : I.action interp (frame.value interp) world with
  | none => exact .none
  | some shown =>
      exact rel_map
        (perform_matches hinst hfollows hknown hrest hrest' hcallers haction)
        fun next next' hlevel => ⟨rfl, hlevel⟩

end Matching

end Carat

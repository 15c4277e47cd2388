import Carat.ModuleRun

/-!
# Values with more to them

An interpretation may carry along with every value something that no operation
looks at.  When forgetting it commutes with the operations it commutes with
steps, so a run of the interpretation of plain values is what remains of a run
of the other one, and each of its states is what remains of a state of that run.
-/

namespace Carat

open LabelledRun

variable {Val Val' World : Type}

/-! ## Forgetting -/

def Event.map (f : Val' → Val) : Event Val' → Event Val
  | .load id ptr => .load id (f ptr)
  | .store id ptr val => .store id (f ptr) (f val)
  | .call name args => .call name (args.map f)
  | .executes operation operands => .executes operation (operands.map f)
  | .returns result => .returns (f result)
  | .raises exception => .raises (f exception)

def Reply.map (f : Val' → Val) : Reply Val' World → Reply Val World
  | .returns result world => .returns (f result) world
  | .raises exception world => .raises (f exception) world

def Action.map (f : Val' → Val) : Action Val' World → Action Val World
  | .proceed result world => .proceed (f result) world
  | .jump target => .jump target
  | .call name args => .call name (args.map f)
  | .ret result => .ret (f result)
  | .raise exception => .raise (f exception)

def Frame.map (f : Val' → Val) (frame : Frame Val') : Frame Val where
  function := frame.function
  block := frame.block
  rest := frame.rest
  env := fun id => (frame.env id).map f
  args := frame.args.map f

def State.map (f : Val' → Val) (state : State Val' World) : State Val World :=
  ⟨state.frames.map (Frame.map f), state.world⟩

theorem mapM_map {α β β' : Type} (f : α → Option β) (g : β → β') (items : List α) :
    (items.mapM fun a => (f a).map g) = (items.mapM f).map (List.map g) := by
  induction items with
  | nil => rfl
  | cons a rest ih =>
      rw [List.mapM_cons, List.mapM_cons, ih]
      cases f a with
      | none => rfl
      | some b => cases rest.mapM f <;> rfl

section Mapping

variable (f : Val' → Val)

@[simp]
theorem Frame.map_rest (frame : Frame Val') : (frame.map f).rest = frame.rest :=
  rfl

@[simp]
theorem Frame.map_block (frame : Frame Val') : (frame.map f).block = frame.block :=
  rfl

theorem bindAll_map (env : InstId → Option Val') (results : List (InstId × Val')) :
    bindAll (fun id => (env id).map f) (results.map (Prod.map id f)) =
      fun id => (bindAll env results id).map f := by
  induction results generalizing env with
  | nil => rfl
  | cons result rest ih =>
      refine Eq.trans ?_ (ih (Function.update env result.1 (some result.2)))
      rw [List.map_cons, bindAll]
      congr 1
      funext other
      by_cases hother : other = result.1 <;> simp [hother]

theorem Frame.map_bind (frame : Frame Val') (id : InstId) (result : Val') :
    (frame.bind id result).map f = (frame.map f).bind id (f result) :=
  congrArg (fun env => { frame.map f with env := env })
    (bindAll_map f frame.env [(id, result)]).symm

theorem Frame.start_map (F : Function) (args : List Val') :
    Frame.start F (args.map f) = (Frame.start F args).map (Frame.map f) := by
  unfold start
  cases F.blocks.head? <;> rfl

end Mapping

/-- The operations on `Val'` are those on `Val` with `erase` after them. -/
structure Interp.Erases (interp' : Interp Val' World) (interp : Interp Val World)
    (erase : Val' → Val) : Prop where
  unit : interp.unit = erase interp'.unit
  constant : ∀ value, interp.constant value = erase (interp'.constant value)
  alloca : ∀ inst allocated count world, interp.alloca inst allocated (erase count) world =
    (interp'.alloca inst allocated count world).map (Prod.map erase id)
  load : ∀ ty ptr world, interp.load ty (erase ptr) world =
    (interp'.load ty ptr world).map (Prod.map erase id)
  store : ∀ ty value ptr world,
    interp.store ty (erase value) (erase ptr) world = interp'.store ty value ptr world
  getelementptr : ∀ ty base indices, interp.getelementptr ty (erase base) (indices.map erase) =
    (interp'.getelementptr ty base indices).map erase
  convert : ∀ src ty value, interp.convert src ty (erase value) =
    (interp'.convert src ty value).map erase
  execute : ∀ operation ty operands world,
    interp.execute operation ty (operands.map erase) world =
      (interp'.execute operation ty operands world).map (Prod.map erase id)
  choose : ∀ opcode operands,
    interp.choose opcode (operands.map erase) = interp'.choose opcode operands
  resolve : ∀ value, interp.resolve (erase value) = interp'.resolve value
  external : ∀ name args world, interp.external name (args.map erase) world =
    (interp'.external name args world).map (Reply.map erase)
  enter : interp.enter = interp'.enter
  leave : interp.leave = interp'.leave
  throw : ∀ exception, interp.throw (erase exception) = interp'.throw exception

namespace Interp.Erases

variable {interp' : Interp Val' World} {interp : Interp Val World} {erase : Val' → Val}
  (herases : interp'.Erases interp erase)

include herases

/-! ## One instruction -/

theorem const (value : Const) : interp.const value = erase (interp'.const value) := by
  induction value with
  | bitcast value ty ih => exact ih
  | _ => exact herases.constant _

theorem value (env : InstId → Option Val') (args : List Val') (v : Value) :
    interp.value (fun id => (env id).map erase) (args.map erase) v =
      (interp'.value env args v).map erase := by
  cases v with
  | inst id ty => rfl
  | arg index ty => exact List.getElem?_map
  | const value => exact congrArg some (herases.const value)

theorem frameValue (frame : Frame Val') :
    (frame.map erase).value interp = fun v => (frame.value interp' v).map erase :=
  funext (herases.value frame.env frame.args)

variable (value : Value → Option Val')

theorem callAction (callee : Callee) (args : List Value) :
    Carat.callAction interp (fun v => (value v).map erase) callee args =
      (Carat.callAction interp' value callee args).map
        (Prod.map (List.map (Event.map erase)) (Action.map erase)) := by
  have hname : callee.name interp (fun v => (value v).map erase) = callee.name interp' value := by
    cases callee with
    | function name => rfl
    | value v => cases hv : value v <;> simp [Callee.name, hv, herases.resolve]
  unfold Carat.callAction
  rw [hname, mapM_map]
  cases callee.name interp' value with
  | none => rfl
  | some name => cases args.mapM value <;> rfl

theorem operationAction (world : World) (operation : Operation) (ty : Ty)
    (operands : List Value) :
    Carat.operationAction interp (fun v => (value v).map erase) world operation ty operands =
      (Carat.operationAction interp' value world operation ty operands).map
        (Prod.map (List.map (Event.map erase)) (Action.map erase)) := by
  unfold Carat.operationAction
  rw [mapM_map]
  cases operands.mapM value with
  | none => rfl
  | some operands =>
      simp only [Option.map_some, Option.bind_some, herases.execute, Option.map_map]
      rfl

theorem action (world : World) (I : Inst) :
    I.action interp (fun v => (value v).map erase) world =
      (I.action interp' value world).map
        (Prod.map (List.map (Event.map erase)) (Action.map erase)) := by
  obtain ⟨id, ty, op⟩ := I
  cases op with
  | alloca allocated count =>
      simp only [Inst.action]
      cases value count <;> simp [herases.alloca, Function.comp_def, Action.map]
  | load ptr =>
      simp only [Inst.action]
      cases value ptr <;> simp [herases.load, Function.comp_def, Event.map, Action.map]
  | store val ptr =>
      simp only [Inst.action]
      cases value val <;> cases value ptr <;>
        simp [herases.store, herases.unit, Function.comp_def, Event.map, Action.map]
  | getelementptr ptr indices =>
      simp only [Inst.action, mapM_map]
      cases value ptr <;> cases indices.mapM value <;>
        simp [herases.getelementptr, Function.comp_def, Action.map]
  | bitcast src =>
      simp only [Inst.action]
      cases value src with
      | none => rfl
      | some val =>
          simp only [Option.map_some, Option.bind_some, herases.convert]
          split
          · rfl
          · simp [Function.comp_def, Action.map]
  | call callee args => exact herases.callAction value callee args
  | atomicrmw opcode ptr val => exact herases.operationAction value world _ ty _
  | cmpxchg ptr cmp new => exact herases.operationAction value world _ ty _
  | phi incoming => rfl
  | other opcode operands => exact herases.operationAction value world _ ty operands
  | branch opcode operands succs =>
      simp only [Inst.action, mapM_map]
      cases operands.mapM value with
      | none => rfl
      | some operands =>
          simp only [Option.map_some, Option.bind_some, herases.choose]
          cases interp'.choose opcode operands with
          | none => rfl
          | some index => cases hsucc : succs[index]? <;> simp [hsucc, Action.map]
  | invoke callee args normal landing => exact herases.callAction value callee args
  | ret val =>
      cases val with
      | none => simp [Inst.action, herases.unit, Event.map, Action.map]
      | some val =>
          simp only [Inst.action]
          cases value val <;> rfl
  | resume val =>
      simp only [Inst.action]
      cases value val <;> rfl
  | unreachable => rfl

/-! ## Frames -/

theorem enterFrame (frame : Frame Val') (target : BlockId) :
    (frame.map erase).enter interp target = (frame.enter interp' target).map (Frame.map erase) := by
  have hphis : ∀ phis, phiResults ((frame.map erase).value interp) frame.block phis =
      (phiResults (frame.value interp') frame.block phis).map (List.map (Prod.map id erase)) := by
    intro phis
    unfold phiResults
    rw [herases.frameValue, ← mapM_map]
    congr 1
    funext I
    cases I.incoming frame.block <;> simp [Function.comp_def]
  unfold Frame.enter
  change (frame.function.block? target).bind _ = _
  cases frame.function.block? target with
  | none => rfl
  | some B =>
      simp only [Option.bind_some]
      rw [Frame.map_block, hphis]
      cases phiResults (frame.value interp') frame.block (B.insts.takeWhile Inst.isPhi) with
      | none => rfl
      | some results =>
          exact congrArg (fun env => some (⟨frame.function, target, _, env, _⟩ : Frame Val))
            (bindAll_map erase frame.env results)

theorem deliver (result : Val') (frames : List (Frame Val')) :
    Carat.deliver interp (erase result) (frames.map (Frame.map erase)) =
      (Carat.deliver interp' result frames).map (List.map (Frame.map erase)) := by
  cases frames with
  | nil => rfl
  | cons frame callers =>
      simp only [List.map_cons, Carat.deliver]
      rw [Frame.map_rest]
      cases frame.rest with
      | nil => rfl
      | cons I rest =>
          cases hop : I.op with
          | call callee args =>
              simp only [hop]
              exact congrArg (fun frame => some (frame :: callers.map (Frame.map erase)))
                (Frame.map_bind erase { frame with rest := rest } I.id result).symm
          | invoke callee args normal landing =>
              simp only [hop]
              rw [← Frame.map_bind, herases.enterFrame]
              simp [Function.comp_def]
          | _ => simp [hop]

theorem unwind (world : World) (frames : List (Frame Val')) :
    Carat.unwind interp world (frames.map (Frame.map erase)) =
      (Carat.unwind interp' world frames).map (State.map erase) := by
  induction frames generalizing world with
  | nil => rfl
  | cons frame callers ih =>
      simp only [List.map_cons, Carat.unwind]
      rw [Frame.map_rest, herases.leave, ih]
      cases frame.rest with
      | nil => rfl
      | cons I rest =>
          cases hop : I.op with
          | invoke callee args normal landing =>
              simp only [hop]
              rw [herases.enterFrame]
              simp [Function.comp_def, State.map]
          | _ => simp [hop]

/-! ## Steps and runs -/

theorem perform (M : Module) (frame : Frame Val') (callers : List (Frame Val')) (I : Inst)
    (rest : List Inst) (world : World) (act : Action Val' World) :
    Carat.perform M interp (frame.map erase) (callers.map (Frame.map erase)) I rest world
        (act.map erase) =
      (Carat.perform M interp' frame callers I rest world act).map (State.map erase) := by
  cases act with
  | proceed result next =>
      exact congrArg (fun frame => some (⟨frame :: callers.map (Frame.map erase), next⟩ :
          State Val World)) (Frame.map_bind erase { frame with rest := rest } I.id result).symm
  | jump target =>
      simp only [Action.map, Carat.perform, herases.enterFrame]
      simp [Function.comp_def, State.map]
  | call name args =>
      simp only [Action.map, Carat.perform, Frame.start_map, herases.external, herases.enter]
      cases M.definition? name with
      | some F => simp [Function.comp_def, State.map]
      | none =>
          simp only
          cases interp'.external name args world with
          | none => rfl
          | some reply =>
              cases reply with
              | returns result next =>
                  have hdeliver := herases.deliver result (frame :: callers)
                  rw [List.map_cons] at hdeliver
                  simp only [Option.map_some, Option.bind_some, Reply.map, hdeliver]
                  simp [Function.comp_def, State.map]
              | raises exception next =>
                  have hunwind := herases.unwind (interp'.throw exception next) (frame :: callers)
                  rw [List.map_cons] at hunwind
                  simp only [Option.map_some, Option.bind_some, Reply.map, herases.throw, hunwind]
  | ret result =>
      simp only [Action.map, Carat.perform, herases.deliver, herases.leave]
      simp [Function.comp_def, State.map]
  | raise exception =>
      simp only [Action.map, Carat.perform, herases.throw, herases.leave, herases.unwind]

theorem step (M : Module) (state : State Val' World) :
    Carat.step M interp (state.map erase) =
      (Carat.step M interp' state).map
        (Prod.map (List.map (Event.map erase)) (State.map erase)) := by
  obtain ⟨frames, world⟩ := state
  cases frames with
  | nil => rfl
  | cons frame callers =>
      simp only [Carat.step, State.map, List.map_cons]
      rw [Frame.map_rest]
      cases frame.rest with
      | nil => rfl
      | cons I rest =>
          simp only [herases.frameValue, herases.action]
          cases I.action interp' (frame.value interp') world with
          | none => rfl
          | some shown =>
              simp only [Option.map_some, Option.bind_some, Prod.map_fst, Prod.map_snd,
                herases.perform, Option.map_map]
              rfl

/-- A run of plain values is what remains of a run from the same start. -/
theorem exists_run {M : Module} {start : State Val' World} {trace : List (Event Val)}
    {last : State Val World} (hrun : Run (Steps M interp) (start.map erase) trace last) :
    ∃ trace' last', Run (Steps M interp') start trace' last' ∧
      trace'.map (Event.map erase) = trace ∧ last'.map erase = last := by
  induction hrun with
  | nil => exact ⟨[], start, .nil, rfl, rfl⟩
  | snoc _ hlast ih =>
      obtain ⟨trace', middle', hrun', rfl, rfl⟩ := ih
      unfold Steps at hlast
      rw [herases.step] at hlast
      obtain ⟨⟨events', next'⟩, hstep', heq⟩ := Option.map_eq_some_iff.mp hlast
      obtain ⟨rfl, rfl⟩ := Prod.mk.inj heq
      exact ⟨_, next', hrun'.snoc hstep', List.map_append, rfl⟩

theorem exists_moduleRun {M : Module} {name : String} {args : List Val'} {world : World}
    {trace : List (Event Val)} {last : State Val World}
    (hrun : ModuleRun M interp name (args.map erase) world trace last) :
    ∃ trace' last', ModuleRun M interp' name args world trace' last' ∧
      trace'.map (Event.map erase) = trace ∧ last'.map erase = last := by
  obtain ⟨F, frame, hF, hstart, hsteps⟩ := hrun
  rw [Frame.start_map] at hstart
  obtain ⟨frame', hstart', rfl⟩ := Option.map_eq_some_iff.mp hstart
  have hrun : Run (Steps M interp) (State.map erase ⟨[frame'], interp'.enter world⟩)
      trace last := by
    rwa [herases.enter] at hsteps
  obtain ⟨trace', last', hrun', htrace, hlast⟩ := herases.exists_run hrun
  exact ⟨trace', last', ⟨F, frame', hF, hstart', hrun'⟩, htrace, hlast⟩

end Interp.Erases

end Carat

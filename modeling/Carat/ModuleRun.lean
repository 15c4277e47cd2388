import Carat.LabelledRun
import Carat.ModuleIR

/-!
# Running a module

A small-step semantics over a stack of frames.  Control flow is fixed here:
blocks, phis, calls, returns and unwinding.  What single instructions compute,
what memory is and what functions outside the module do is left to an
interpretation, so that results hold for every memory model; a bitcast between
pointer types is the one value operation that is fixed.

Memory accesses, calls, other operations and returns are visible in the trace.
-/

namespace Carat

open LabelledRun

inductive Reply (Val World : Type) where
  | returns (result : Val) (world : World)
  | raises (exception : Val) (world : World)

/-- Operations that have no clause of their own in the semantics. -/
inductive Operation where
  | atomicrmw (opcode : ℕ)
  | cmpxchg
  | other (opcode : ℕ)
  deriving DecidableEq, Repr

structure Interp (Val World : Type) where
  unit : Val
  constant : Const → Val
  alloca : InstId → Ty → Val → World → Option (Val × World)
  load : Ty → Val → World → Option (Val × World)
  store : Ty → Val → Val → World → Option World
  getelementptr : Ty → Val → List Val → Option Val
  -- Bitcasts between types that are no pointer types.
  convert : Ty → Ty → Val → Option Val
  execute : Operation → Ty → List Val → World → Option (Val × World)
  choose : ℕ → List Val → Option ℕ
  resolve : Val → Option String
  external : String → List Val → World → Option (Reply Val World)
  -- What entering and leaving a frame does to memory.
  enter : World → World
  leave : World → World
  -- An exception is raised; landing pads find it in memory.
  throw : Val → World → World

inductive Event (Val : Type) where
  | load (id : InstId) (ptr : Val)
  | store (id : InstId) (ptr val : Val)
  | call (name : String) (args : List Val)
  | executes (operation : Operation) (operands : List Val)
  | returns (result : Val)
  | raises (exception : Val)
  deriving DecidableEq, Repr

/-- One activation of a function.  While a callee runs, the call is still the
first instruction of `rest`. -/
structure Frame (Val : Type) where
  function : Function
  block : BlockId
  rest : List Inst
  env : InstId → Option Val
  args : List Val

structure State (Val World : Type) where
  frames : List (Frame Val)
  world : World

variable {Val World : Type}

/-- A cast of a constant pointer is that pointer. -/
def Interp.const (interp : Interp Val World) : Const → Val
  | .bitcast value _ => interp.const value
  | value => interp.constant value

def Interp.value (interp : Interp Val World) (env : InstId → Option Val)
    (args : List Val) : Value → Option Val
  | .inst id _ => env id
  | .arg index _ => args[index]?
  | .const value => some (interp.const value)

def Frame.value (interp : Interp Val World) (frame : Frame Val) : Value → Option Val :=
  interp.value frame.env frame.args

def Frame.bind (frame : Frame Val) (id : InstId) (result : Val) : Frame Val :=
  { frame with env := Function.update frame.env id (some result) }

inductive Action (Val World : Type) where
  | proceed (result : Val) (world : World)
  | jump (target : BlockId)
  | call (name : String) (args : List Val)
  | ret (result : Val)
  | raise (exception : Val)

def Callee.name (interp : Interp Val World) (value : Value → Option Val) :
    Callee → Option String
  | .function name => some name
  | .value v => (value v).bind interp.resolve

def callAction (interp : Interp Val World) (value : Value → Option Val)
    (callee : Callee) (args : List Value) :
    Option (List (Event Val) × Action Val World) :=
  (callee.name interp value).bind fun name =>
    (args.mapM value).map fun args => ([.call name args], .call name args)

def operationAction (interp : Interp Val World) (value : Value → Option Val)
    (world : World) (operation : Operation) (ty : Ty) (operands : List Value) :
    Option (List (Event Val) × Action Val World) :=
  (operands.mapM value).bind fun operands =>
    (interp.execute operation ty operands world).map fun done =>
      ([.executes operation operands], .proceed done.1 done.2)

def Inst.action (interp : Interp Val World) (value : Value → Option Val)
    (world : World) (I : Inst) : Option (List (Event Val) × Action Val World) :=
  match I.op with
  | .alloca allocated count =>
      (value count).bind fun count =>
        (interp.alloca I.id allocated count world).map fun done =>
          ([], .proceed done.1 done.2)
  | .load ptr =>
      (value ptr).bind fun ptr =>
        (interp.load I.ty ptr world).map fun done =>
          ([.load I.id ptr], .proceed done.1 done.2)
  | .store val ptr =>
      (value val).bind fun stored =>
        (value ptr).bind fun ptr =>
          (interp.store val.ty stored ptr world).map fun world =>
            ([.store I.id ptr stored], .proceed interp.unit world)
  | .getelementptr ptr indices =>
      (value ptr).bind fun base =>
        (indices.mapM value).bind fun indices =>
          (interp.getelementptr ptr.ty base indices).map fun result =>
            ([], .proceed result world)
  | .bitcast src =>
      (value src).bind fun val =>
        if src.ty.isPtr || I.ty.isPtr then some ([], .proceed val world)
        else
          (interp.convert src.ty I.ty val).map fun result =>
            ([], .proceed result world)
  | .call callee args => callAction interp value callee args
  | .atomicrmw opcode ptr val =>
      operationAction interp value world (.atomicrmw opcode) I.ty [ptr, val]
  | .cmpxchg ptr cmp new =>
      operationAction interp value world .cmpxchg I.ty [ptr, cmp, new]
  | .other opcode operands =>
      operationAction interp value world (.other opcode) I.ty operands
  | .phi _ => none
  | .branch opcode operands succs =>
      (operands.mapM value).bind fun operands =>
        (interp.choose opcode operands).bind fun index =>
          succs[index]?.map fun target => ([], .jump target)
  | .invoke callee args _ _ => callAction interp value callee args
  | .ret val =>
      match val with
      | none => some ([.returns interp.unit], .ret interp.unit)
      | some val => (value val).map fun val => ([.returns val], .ret val)
  | .resume val => (value val).map fun val => ([.raises val], .raise val)
  | .unreachable => none

/-! ## What one instruction can do -/

def Op.called : Op → Option (Callee × List Value)
  | .call callee args => some (callee, args)
  | .invoke callee args _ _ => some (callee, args)
  | _ => none

def Op.executed : Op → Option (Operation × List Value)
  | .atomicrmw opcode ptr val => some (.atomicrmw opcode, [ptr, val])
  | .cmpxchg ptr cmp new => some (.cmpxchg, [ptr, cmp, new])
  | .other opcode operands => some (.other opcode, operands)
  | _ => none

inductive Inst.Acts (interp : Interp Val World) (value : Value → Option Val) (world : World)
    (I : Inst) : List (Event Val) → Action Val World → Prop where
  | alloca {allocated : Ty} {count : Value} {n result : Val} {next : World} :
      I.op = .alloca allocated count → value count = some n →
        interp.alloca I.id allocated n world = some (result, next) →
        Acts interp value world I [] (.proceed result next)
  | load {ptr : Value} {p result : Val} {next : World} :
      I.op = .load ptr → value ptr = some p →
        interp.load I.ty p world = some (result, next) →
        Acts interp value world I [.load I.id p] (.proceed result next)
  | store {val ptr : Value} {stored p : Val} {next : World} :
      I.op = .store val ptr → value val = some stored → value ptr = some p →
        interp.store val.ty stored p world = some next →
        Acts interp value world I [.store I.id p stored] (.proceed interp.unit next)
  | getelementptr {ptr : Value} {indices : List Value} {base result : Val} {offsets : List Val} :
      I.op = .getelementptr ptr indices → value ptr = some base →
        indices.mapM value = some offsets →
        interp.getelementptr ptr.ty base offsets = some result →
        Acts interp value world I [] (.proceed result world)
  | bitcast {src : Value} {val : Val} :
      I.op = .bitcast src → (src.ty.isPtr || I.ty.isPtr) = true → value src = some val →
        Acts interp value world I [] (.proceed val world)
  | convert {src : Value} {val result : Val} :
      I.op = .bitcast src → (src.ty.isPtr || I.ty.isPtr) = false → value src = some val →
        interp.convert src.ty I.ty val = some result →
        Acts interp value world I [] (.proceed result world)
  | executes {operation : Operation} {operands : List Value} {vals : List Val} {result : Val}
      {next : World} :
      I.op.executed = some (operation, operands) → operands.mapM value = some vals →
        interp.execute operation I.ty vals world = some (result, next) →
        Acts interp value world I [.executes operation vals] (.proceed result next)
  | calls {callee : Callee} {args : List Value} {name : String} {vals : List Val} :
      I.op.called = some (callee, args) → callee.name interp value = some name →
        args.mapM value = some vals →
        Acts interp value world I [.call name vals] (.call name vals)
  | branch {opcode : ℕ} {operands : List Value} {succs : List BlockId} {target : BlockId} :
      I.op = .branch opcode operands succs → target ∈ succs →
        Acts interp value world I [] (.jump target)
  | ret {val : Option Value} {result : Val} :
      I.op = .ret val → Acts interp value world I [.returns result] (.ret result)
  | resume {val : Value} {exception : Val} :
      I.op = .resume val → Acts interp value world I [.raises exception] (.raise exception)

section Acting

variable {interp : Interp Val World} {value : Value → Option Val} {world : World} {I : Inst}
  {events : List (Event Val)} {act : Action Val World}

theorem acts_of_callAction {callee : Callee} {args : List Value}
    (hcalled : I.op.called = some (callee, args))
    (haction : callAction interp value callee args = some (events, act)) :
    I.Acts interp value world events act := by
  obtain ⟨name, hname, hargs⟩ := Option.bind_eq_some_iff.mp haction
  obtain ⟨vals, hvals, heq⟩ := Option.map_eq_some_iff.mp hargs
  obtain ⟨rfl, rfl⟩ := Prod.mk.inj heq
  exact .calls hcalled hname hvals

theorem acts_of_operationAction {operation : Operation} {operands : List Value}
    (hexecuted : I.op.executed = some (operation, operands))
    (haction : operationAction interp value world operation I.ty operands = some (events, act)) :
    I.Acts interp value world events act := by
  obtain ⟨vals, hvals, hdone⟩ := Option.bind_eq_some_iff.mp haction
  obtain ⟨⟨result, next⟩, hexecute, heq⟩ := Option.map_eq_some_iff.mp hdone
  obtain ⟨rfl, rfl⟩ := Prod.mk.inj heq
  exact .executes hexecuted hvals hexecute

theorem acts_of_action (haction : I.action interp value world = some (events, act)) :
    I.Acts interp value world events act := by
  obtain ⟨id, ty, op⟩ := I
  cases op with
  | alloca allocated count =>
      obtain ⟨n, hn, hdone⟩ := Option.bind_eq_some_iff.mp haction
      obtain ⟨⟨result, next⟩, halloca, heq⟩ := Option.map_eq_some_iff.mp hdone
      obtain ⟨rfl, rfl⟩ := Prod.mk.inj heq
      exact .alloca rfl hn halloca
  | load ptr =>
      obtain ⟨p, hp, hdone⟩ := Option.bind_eq_some_iff.mp haction
      obtain ⟨⟨result, next⟩, hload, heq⟩ := Option.map_eq_some_iff.mp hdone
      obtain ⟨rfl, rfl⟩ := Prod.mk.inj heq
      exact .load rfl hp hload
  | store val ptr =>
      obtain ⟨stored, hstored, hptr⟩ := Option.bind_eq_some_iff.mp haction
      obtain ⟨p, hp, hdone⟩ := Option.bind_eq_some_iff.mp hptr
      obtain ⟨next, hstore, heq⟩ := Option.map_eq_some_iff.mp hdone
      obtain ⟨rfl, rfl⟩ := Prod.mk.inj heq
      exact .store rfl hstored hp hstore
  | getelementptr ptr indices =>
      obtain ⟨base, hbase, hindices⟩ := Option.bind_eq_some_iff.mp haction
      obtain ⟨offsets, hoffsets, hdone⟩ := Option.bind_eq_some_iff.mp hindices
      obtain ⟨result, hresult, heq⟩ := Option.map_eq_some_iff.mp hdone
      obtain ⟨rfl, rfl⟩ := Prod.mk.inj heq
      exact .getelementptr rfl hbase hoffsets hresult
  | bitcast src =>
      obtain ⟨val, hval, hresult⟩ := Option.bind_eq_some_iff.mp haction
      cases hptr : src.ty.isPtr || ty.isPtr with
      | true =>
          rw [if_pos hptr] at hresult
          obtain ⟨rfl, rfl⟩ := Prod.mk.inj (Option.some.inj hresult)
          exact .bitcast rfl hptr hval
      | false =>
          rw [if_neg (by simp [hptr])] at hresult
          obtain ⟨result, hconvert, heq⟩ := Option.map_eq_some_iff.mp hresult
          obtain ⟨rfl, rfl⟩ := Prod.mk.inj heq
          exact .convert rfl hptr hval hconvert
  | call callee args => exact acts_of_callAction rfl haction
  | atomicrmw opcode ptr val => exact acts_of_operationAction rfl haction
  | cmpxchg ptr cmp new => exact acts_of_operationAction rfl haction
  | phi incoming => simp [Inst.action] at haction
  | other opcode operands => exact acts_of_operationAction rfl haction
  | branch opcode operands succs =>
      obtain ⟨_, _, hchoose⟩ := Option.bind_eq_some_iff.mp haction
      obtain ⟨_, _, hjump⟩ := Option.bind_eq_some_iff.mp hchoose
      obtain ⟨target, htarget, heq⟩ := Option.map_eq_some_iff.mp hjump
      obtain ⟨rfl, rfl⟩ := Prod.mk.inj heq
      exact .branch rfl (List.mem_of_getElem? htarget)
  | invoke callee args normal unwind => exact acts_of_callAction rfl haction
  | ret val =>
      cases val with
      | none =>
          obtain ⟨rfl, rfl⟩ := Prod.mk.inj (Option.some.inj haction)
          exact .ret rfl
      | some val =>
          obtain ⟨result, _, heq⟩ := Option.map_eq_some_iff.mp haction
          obtain ⟨rfl, rfl⟩ := Prod.mk.inj heq
          exact .ret rfl
  | resume val =>
      obtain ⟨exception, _, heq⟩ := Option.map_eq_some_iff.mp haction
      obtain ⟨rfl, rfl⟩ := Prod.mk.inj heq
      exact .resume rfl
  | unreachable => simp [Inst.action] at haction

theorem Inst.Acts.of_called {callee : Callee} {args : List Value}
    (hacts : I.Acts interp value world events act)
    (hcalled : I.op.called = some (callee, args)) :
    ∃ name vals, callee.name interp value = some name ∧ act = .call name vals := by
  cases hacts with
  | calls hcalled' hname _ =>
      obtain ⟨rfl, rfl⟩ := Prod.mk.inj (Option.some.inj (hcalled.symm.trans hcalled'))
      exact ⟨_, _, hname, rfl⟩
  | executes hexecuted _ _ => cases hop : I.op <;> simp_all [Op.called, Op.executed]
  | alloca hop _ _ | load hop _ _ | store hop _ _ _ | getelementptr hop _ _ _
  | bitcast hop _ _ | convert hop _ _ _ | branch hop _ | ret hop | resume hop =>
      simp [hop, Op.called] at hcalled

theorem Inst.Acts.events_of_called {callee : Callee} {args : List Value}
    (hacts : I.Acts interp value world events act)
    (hcalled : I.op.called = some (callee, args)) {name : String} {vals : List Val}
    (hname : callee.name interp value = some name) (hvals : args.mapM value = some vals) :
    events = [.call name vals] := by
  cases hacts with
  | calls hcalled' hname' hvals' =>
      obtain ⟨rfl, rfl⟩ := Prod.mk.inj (Option.some.inj (hcalled.symm.trans hcalled'))
      obtain rfl := Option.some.inj (hname.symm.trans hname')
      obtain rfl := Option.some.inj (hvals.symm.trans hvals')
      rfl
  | executes hexecuted _ _ => cases hop : I.op <;> simp_all [Op.called, Op.executed]
  | alloca hop _ _ | load hop _ _ | store hop _ _ _ | getelementptr hop _ _ _
  | bitcast hop _ _ | convert hop _ _ _ | branch hop _ | ret hop | resume hop =>
      simp [hop, Op.called] at hcalled

end Acting

section Operands

variable {interp : Interp Val World} {value value' : Value → Option Val} {world : World}
  {I : Inst}

theorem mapM_option_congr {α β : Type*} {f f' : α → Option β} {items : List α}
    (hsame : ∀ a ∈ items, f' a = f a) : items.mapM f' = items.mapM f := by
  induction items with
  | nil => rfl
  | cons a rest ih =>
      obtain ⟨ha, hrest⟩ := List.forall_mem_cons.mp hsame
      rw [List.mapM_cons, List.mapM_cons, ha, ih hrest]

theorem callAction_congr {callee : Callee} {args : List Value}
    (hsame : ∀ v ∈ callee.values ++ args, value' v = value v) :
    callAction interp value' callee args = callAction interp value callee args := by
  have hargs := mapM_option_congr fun v hv => hsame v (List.mem_append_right _ hv)
  cases callee with
  | function name => simp only [callAction, Callee.name, hargs]
  | value v =>
      have hv : value' v = value v := hsame v (by simp [Callee.values])
      simp only [callAction, Callee.name, hargs, hv]

theorem operationAction_congr {operation : Operation} {ty : Ty} {operands : List Value}
    (hsame : ∀ v ∈ operands, value' v = value v) :
    operationAction interp value' world operation ty operands =
      operationAction interp value world operation ty operands := by
  simp only [operationAction, mapM_option_congr hsame]

theorem action_congr (hsame : ∀ v ∈ I.op.values, value' v = value v) :
    I.action interp value' world = I.action interp value world := by
  obtain ⟨id, ty, op⟩ := I
  cases op with
  | alloca allocated count => simp [Inst.action, hsame count (by simp [Op.values])]
  | load ptr => simp [Inst.action, hsame ptr (by simp [Op.values])]
  | store val ptr =>
      simp [Inst.action, hsame val (by simp [Op.values]), hsame ptr (by simp [Op.values])]
  | getelementptr ptr indices =>
      have hindices := mapM_option_congr fun v hv => hsame v (List.mem_cons_of_mem _ hv)
      simp [Inst.action, hsame ptr (by simp [Op.values]), hindices]
  | bitcast src => simp [Inst.action, hsame src (by simp [Op.values])]
  | call callee args => exact callAction_congr hsame
  | atomicrmw opcode ptr val => exact operationAction_congr hsame
  | cmpxchg ptr cmp new => exact operationAction_congr hsame
  | phi incoming => rfl
  | other opcode operands => exact operationAction_congr hsame
  | branch opcode operands succs =>
      have hoperands : operands.mapM value' = operands.mapM value := mapM_option_congr hsame
      simp [Inst.action, hoperands]
  | invoke callee args normal unwind => exact callAction_congr hsame
  | ret val =>
      cases val with
      | none => rfl
      | some val => simp [Inst.action, hsame val (by simp [Op.values])]
  | resume val => simp [Inst.action, hsame val (by simp [Op.values])]
  | unreachable => rfl

end Operands

/-! ## Blocks and frames -/

def Function.block? (F : Function) (label : BlockId) : Option Block :=
  F.blocks.find? fun B => B.label == label

theorem Function.mem_insts_of_block? {F : Function} {label : BlockId} {B : Block}
    (hB : F.block? label = some B) : ∀ I ∈ B.insts, I ∈ F.insts := fun _ hI =>
  List.mem_flatMap.mpr ⟨B, List.mem_of_find?_eq_some hB, hI⟩

def Inst.incoming (prev : BlockId) (I : Inst) : Option Value :=
  match I.op with
  | .phi incoming =>
      (incoming.find? fun edge => edge.1 == prev).map Prod.snd
  | _ => none

theorem Inst.incoming_mem {prev : BlockId} {I : Inst} {v : Value}
    (hincoming : I.incoming prev = some v) : v ∈ I.op.values := by
  obtain ⟨id, ty, op⟩ := I
  cases op with
  | phi incoming =>
      obtain ⟨edge, hedge, rfl⟩ := Option.map_eq_some_iff.mp hincoming
      exact List.mem_map.mpr ⟨edge, List.mem_of_find?_eq_some hedge, rfl⟩
  | _ => simp [Inst.incoming] at hincoming

def bindAll (env : InstId → Option Val) : List (InstId × Val) → InstId → Option Val
  | [] => env
  | (id, result) :: rest => bindAll (Function.update env id (some result)) rest

/-- What the phis of a block yield when it is entered from `prev`. -/
def phiResults (value : Value → Option Val) (prev : BlockId) (phis : List Inst) :
    Option (List (InstId × Val)) :=
  phis.mapM fun I => ((I.incoming prev).bind value).map fun val => (I.id, val)

/-- Enter a block; its phis are evaluated together, before any takes effect. -/
def Frame.enter (interp : Interp Val World) (frame : Frame Val) (target : BlockId) :
    Option (Frame Val) :=
  (frame.function.block? target).bind fun B =>
    (phiResults (frame.value interp) frame.block (B.insts.takeWhile Inst.isPhi)).map
      fun results =>
        { frame with
          block := target
          rest := B.insts.dropWhile Inst.isPhi
          env := bindAll frame.env results }

def Frame.start (F : Function) (args : List Val) : Option (Frame Val) :=
  F.blocks.head?.map fun B => ⟨F, B.label, B.insts, fun _ => none, args⟩

def deliver (interp : Interp Val World) (result : Val) :
    List (Frame Val) → Option (List (Frame Val))
  | [] => some []
  | frame :: callers =>
      match frame.rest with
      | [] => none
      | I :: rest =>
          match I.op with
          | .call _ _ => some ({ frame with rest := rest }.bind I.id result :: callers)
          | .invoke _ _ normal _ =>
              ((frame.bind I.id result).enter interp normal).map (· :: callers)
          | _ => none

/-- Give up frames until one of them has a landing pad. -/
def unwind (interp : Interp Val World) :
    World → List (Frame Val) → Option (State Val World)
  | world, [] => some ⟨[], world⟩
  | world, frame :: callers =>
      match frame.rest with
      | [] => unwind interp (interp.leave world) callers
      | I :: _ =>
          match I.op with
          | .invoke _ _ _ landing =>
              (frame.enter interp landing).map fun frame => ⟨frame :: callers, world⟩
          | _ => unwind interp (interp.leave world) callers

/-- The function of this name, when the module has its body. -/
def Module.definition? (M : Module) (name : String) : Option Function :=
  M.functions.find? fun F => F.name == name && !F.blocks.isEmpty

theorem Module.mem_insts_of_definition? {M : Module} {name : String} {F : Function}
    (hF : M.definition? name = some F) : ∀ I ∈ F.insts, I ∈ M.insts := fun _ hI =>
  List.mem_flatMap.mpr ⟨F, List.mem_of_find?_eq_some hF, hI⟩

def perform (M : Module) (interp : Interp Val World) (frame : Frame Val)
    (callers : List (Frame Val)) (I : Inst) (rest : List Inst) (world : World) :
    Action Val World → Option (State Val World)
  | .proceed result world => some ⟨{ frame with rest := rest }.bind I.id result :: callers, world⟩
  | .jump target =>
      (frame.enter interp target).map fun frame => ⟨frame :: callers, world⟩
  | .call name args =>
      match M.definition? name with
      | some F =>
          (Frame.start F args).map fun callee =>
            ⟨callee :: frame :: callers, interp.enter world⟩
      | none =>
          (interp.external name args world).bind fun reply =>
            match reply with
            | .returns result world =>
                (deliver interp result (frame :: callers)).map fun frames => ⟨frames, world⟩
            | .raises exception world =>
                unwind interp (interp.throw exception world) (frame :: callers)
  | .ret result =>
      (deliver interp result callers).map fun frames => ⟨frames, interp.leave world⟩
  | .raise exception =>
      unwind interp (interp.leave (interp.throw exception world)) callers

def step (M : Module) (interp : Interp Val World) (state : State Val World) :
    Option (List (Event Val) × State Val World) :=
  match state.frames with
  | [] => none
  | frame :: callers =>
      match frame.rest with
      | [] => none
      | I :: rest =>
          (I.action interp (frame.value interp) state.world).bind fun shown =>
            (perform M interp frame callers I rest state.world shown.2).map fun next =>
              (shown.1, next)

abbrev Steps (M : Module) (interp : Interp Val World) (state : State Val World)
    (events : List (Event Val)) (next : State Val World) : Prop :=
  step M interp state = some (events, next)

theorem step_cases {M : Module} {interp : Interp Val World} {state next : State Val World}
    {events : List (Event Val)} (hstep : Steps M interp state events next) :
    ∃ frame callers I rest act, state.frames = frame :: callers ∧ frame.rest = I :: rest ∧
      I.action interp (frame.value interp) state.world = some (events, act) ∧
      perform M interp frame callers I rest state.world act = some next := by
  unfold Steps step at hstep
  cases hframes : state.frames with
  | nil => simp [hframes] at hstep
  | cons frame callers =>
      cases hrest : frame.rest with
      | nil => simp [hframes, hrest] at hstep
      | cons I rest =>
          simp only [hframes, hrest] at hstep
          obtain ⟨⟨shown, act⟩, haction, hperform⟩ := Option.bind_eq_some_iff.mp hstep
          obtain ⟨last, hlast, heq⟩ := Option.map_eq_some_iff.mp hperform
          obtain ⟨rfl, rfl⟩ : shown = events ∧ last = next := by simpa using heq
          exact ⟨frame, callers, I, rest, act, rfl, hrest, haction, hlast⟩

theorem step_running {M : Module} {interp : Interp Val World} {frame : Frame Val}
    {callers : List (Frame Val)} {world : World} {I : Inst} {rest : List Inst}
    (hrest : frame.rest = I :: rest) {events : List (Event Val)} {next : State Val World}
    (hstep : Steps M interp ⟨frame :: callers, world⟩ events next) :
    ∃ act, I.action interp (frame.value interp) world = some (events, act) ∧
      perform M interp frame callers I rest world act = some next := by
  obtain ⟨_, _, J, rest', act, hframes, hrest', haction, hperform⟩ := step_cases hstep
  obtain ⟨rfl, rfl⟩ := List.cons.inj hframes
  obtain ⟨rfl, rfl⟩ := List.cons.inj (hrest.symm.trans hrest')
  exact ⟨act, haction, hperform⟩

def stepTimes (M : Module) (interp : Interp Val World) :
    ℕ → State Val World → Option (List (Event Val) × State Val World)
  | 0, state => some ([], state)
  | count + 1, state =>
      (step M interp state).bind fun shown =>
        (stepTimes M interp count shown.2).map fun rest => (shown.1 ++ rest.1, rest.2)

theorem run_of_stepTimes {M : Module} {interp : Interp Val World} (count : ℕ)
    {state last : State Val World} {trace : List (Event Val)}
    (hsteps : stepTimes M interp count state = some (trace, last)) :
    Run (Steps M interp) state trace last := by
  induction count generalizing state trace with
  | zero =>
      obtain ⟨rfl, rfl⟩ : [] = trace ∧ state = last := by simpa [stepTimes] using hsteps
      exact .nil
  | succ count ih =>
      obtain ⟨⟨events, next⟩, hstep, hrest⟩ := Option.bind_eq_some_iff.mp hsteps
      obtain ⟨⟨trace', last'⟩, hlast, heq⟩ := Option.map_eq_some_iff.mp hrest
      obtain ⟨rfl, rfl⟩ : events ++ trace' = trace ∧ last' = last := by simpa using heq
      have hfirst : Run (Steps M interp) state events next := .single hstep
      exact hfirst.trans (ih hlast)

/-- A run of the module: one of its functions is called from outside. -/
def ModuleRun (M : Module) (interp : Interp Val World) (name : String) (args : List Val)
    (world : World) (trace : List (Event Val)) (last : State Val World) : Prop :=
  ∃ F frame, M.definition? name = some F ∧ Frame.start F args = some frame ∧
    Run (Steps M interp) ⟨[frame], interp.enter world⟩ trace last

end Carat

import Carat.ValueErasure

/-!
# Flat memory

One interpretation of modules: every value is a machine word, memory is a map
from addresses to bytes, and a `getelementptr` adds an integer to an address.  No
access is refused.  Which objects the `alloca` instructions of the active frames
have made, and which blocks the heap has handed out, is recorded beside the bytes
and has no influence on what an access does.

A platform fixes sizes, offsets, places and the functions outside the module;
what it does must not touch the records, other than to add and to free blocks.

A second interpretation computes the same words and carries along with each from
which object of an `alloca`, or from which block of the heap, it was led, and how far.
-/

namespace Carat

/-- A piece of memory; it does not wrap around. -/
structure MemoryObject where
  base : BitVec 64
  size : ℕ
  fits : base.toNat + size ≤ 2 ^ 64
  deriving DecidableEq

namespace MemoryObject

def Contains (object : MemoryObject) (address : BitVec 64) : Prop :=
  object.base.toNat ≤ address.toNat ∧ address.toNat < object.base.toNat + object.size

instance (object : MemoryObject) (address : BitVec 64) :
    Decidable (object.Contains address) :=
  inferInstanceAs (Decidable (_ ∧ _))

def at? (place : Option (BitVec 64)) (size : ℕ) : Option MemoryObject :=
  place.bind fun base =>
    if hfits : base.toNat + size ≤ 2 ^ 64 then some ⟨base, size, hfits⟩ else none

/-- An access at an offset that keeps inside touches the object only. -/
theorem contains_of_offset (object : MemoryObject) {offset : ℤ} {width : ℕ}
    (hstart : 0 ≤ offset) (hend : offset + width ≤ object.size) {i : ℕ} (hi : i < width) :
    object.Contains (object.base + BitVec.ofInt 64 offset + BitVec.ofNat 64 i) := by
  obtain ⟨k, rfl⟩ := Int.eq_ofNat_of_zero_le hstart
  have hfits := object.fits
  have hki : k + i < object.size := by omega
  have haddress : (object.base + BitVec.ofInt 64 (k : ℤ) + BitVec.ofNat 64 i).toNat =
      object.base.toNat + k + i := by
    rw [BitVec.ofInt_natCast, BitVec.toNat_add, BitVec.toNat_add, BitVec.toNat_ofNat,
      BitVec.toNat_ofNat]
    omega
  unfold Contains
  rw [haddress]
  omega

end MemoryObject

structure StackObject extends MemoryObject where
  alloca : InstId
  deriving DecidableEq

structure HeapBlock extends MemoryObject where
  live : Bool
  deriving DecidableEq

/-- Blocks may be freed; they are not forgotten. -/
def HeapGrows (heap heap' : List HeapBlock) : Prop :=
  ∀ block ∈ heap, ∃ later ∈ heap', later.toMemoryObject = block.toMemoryObject

theorem HeapGrows.refl (heap : List HeapBlock) : HeapGrows heap heap :=
  fun block hblock => ⟨block, hblock, rfl⟩

structure FlatWorld where
  -- The objects of every active frame, the innermost frame first.
  stack : List (List StackObject)
  heap : List HeapBlock
  bytes : BitVec 64 → BitVec 8

namespace FlatWorld

/-- Little endian; what does not fit a word is cut off. -/
def read (world : FlatWorld) (ptr : BitVec 64) (size : ℕ) : BitVec 64 :=
  (List.range size).foldr
    (fun i value =>
      (value <<< 8) ||| (world.bytes (ptr + BitVec.ofNat 64 i)).setWidth 64)
    0

def write (world : FlatWorld) (ptr : BitVec 64) (size : ℕ) (value : BitVec 64) :
    FlatWorld :=
  { world with
    bytes := fun address =>
      let i := (address - ptr).toNat
      if i < size then (value >>> (8 * i)).setWidth 8 else world.bytes address }

def addObject (world : FlatWorld) (object : StackObject) : FlatWorld :=
  match world.stack with
  | [] => world
  | objects :: below => { world with stack := (object :: objects) :: below }

def addBlock (world : FlatWorld) (object : MemoryObject) : FlatWorld :=
  { world with heap := ⟨object, true⟩ :: world.heap }

def clear (world : FlatWorld) (object : MemoryObject) : FlatWorld :=
  { world with
    bytes := fun address => if object.Contains address then 0 else world.bytes address }

def free (world : FlatWorld) (ptr : BitVec 64) : FlatWorld :=
  { world with
    heap := world.heap.map fun block =>
      if block.base = ptr then { block with live := false } else block }

/-- Frames keep their objects, and no block is forgotten. -/
structure Keeps (world next : FlatWorld) : Prop where
  stack : next.stack = world.stack
  heap : HeapGrows world.heap next.heap

theorem keeps_write (world : FlatWorld) (ptr : BitVec 64) (size : ℕ) (value : BitVec 64) :
    world.Keeps (world.write ptr size value) :=
  ⟨rfl, HeapGrows.refl world.heap⟩

theorem keeps_addBlock (world : FlatWorld) (object : MemoryObject) :
    world.Keeps (world.addBlock object) :=
  ⟨rfl, fun block hblock => ⟨block, List.mem_cons_of_mem _ hblock, rfl⟩⟩

theorem keeps_free (world : FlatWorld) (ptr : BitVec 64) : world.Keeps (world.free ptr) where
  stack := rfl
  heap := by
    intro block hblock
    refine ⟨_, List.mem_map_of_mem hblock, ?_⟩
    split <;> rfl

end FlatWorld

structure Platform where
  sizeOf : Ty → ℕ
  -- What the indices of a `getelementptr` add, over a type of pointer.
  offset : Ty → List (BitVec 64) → ℤ
  constant : Const → BitVec 64
  convert : Ty → Ty → BitVec 64 → Option (BitVec 64)
  choose : ℕ → List (BitVec 64) → Option ℕ
  resolve : BitVec 64 → Option String
  stackPlace : FlatWorld → ℕ → Option (BitVec 64)
  heapPlace : FlatWorld → ℕ → Option (BitVec 64)
  execute : Operation → Ty → List (BitVec 64) → FlatWorld → Option (BitVec 64 × FlatWorld)
  external : String → List (BitVec 64) → FlatWorld → Option (Reply (BitVec 64) FlatWorld)
  throw : BitVec 64 → FlatWorld → FlatWorld
  execute_keeps : ∀ operation ty operands (world : FlatWorld) result next,
    execute operation ty operands world = some (result, next) → world.Keeps next
  returns_keeps : ∀ name args (world : FlatWorld) result next,
    external name args world = some (.returns result next) → world.Keeps next
  raises_keeps : ∀ name args (world : FlatWorld) exception next,
    external name args world = some (.raises exception next) → world.Keeps next
  throw_keeps : ∀ exception (world : FlatWorld), world.Keeps (throw exception world)

namespace Platform

variable (platform : Platform)

def malloc (size : ℕ) (world : FlatWorld) : BitVec 64 × FlatWorld :=
  match MemoryObject.at? (platform.heapPlace world size) size with
  | none => (0, world)
  | some object => (object.base, world.addBlock object)

def calloc (count size : ℕ) (world : FlatWorld) : BitVec 64 × FlatWorld :=
  match MemoryObject.at? (platform.heapPlace world (count * size)) (count * size) with
  | none => (0, world)
  | some object => (object.base, (world.addBlock object).clear object)

def call (name : String) (args : List (BitVec 64)) (world : FlatWorld) :
    Option (Reply (BitVec 64) FlatWorld) :=
  if name = "malloc" then
    match args with
    | [size] =>
        let done := platform.malloc size.toNat world
        some (.returns done.1 done.2)
    | _ => none
  else if name = "calloc" then
    match args with
    | [count, size] =>
        let done := platform.calloc count.toNat size.toNat world
        some (.returns done.1 done.2)
    | _ => none
  else if name = "free" then
    match args with
    | [ptr] => some (.returns 0 (world.free ptr))
    | _ => none
  else platform.external name args world

/-- The block that a call of `malloc` or `calloc` hands out, if there is room for it.
`malloc` is passed its size, `calloc` the factors of it. -/
def handsOut (name : String) (args : List (BitVec 64)) (world : FlatWorld) :
    Option MemoryObject :=
  if name = "malloc" ∨ name = "calloc" then
    let size := (args.map BitVec.toNat).prod
    MemoryObject.at? (platform.heapPlace world size) size
  else none

variable {platform}

/-- What an allocation leaves behind: null, or the start of the new block. -/
structure Allocates (world : FlatWorld) (room : Option MemoryObject)
    (done : BitVec 64 × FlatWorld) : Prop where
  keeps : world.Keeps done.2
  result : done.1 = room.elim 0 MemoryObject.base
  added : ∀ object ∈ room, ∃ block ∈ done.2.heap, block.toMemoryObject = object

theorem malloc_allocates (size : ℕ) (world : FlatWorld) :
    Allocates world (MemoryObject.at? (platform.heapPlace world size) size)
      (platform.malloc size world) := by
  unfold malloc
  cases MemoryObject.at? (platform.heapPlace world size) size with
  | none => exact ⟨⟨rfl, HeapGrows.refl _⟩, rfl, by simp⟩
  | some object =>
      exact ⟨world.keeps_addBlock _, rfl, by simp [FlatWorld.addBlock]⟩

theorem calloc_allocates (count size : ℕ) (world : FlatWorld) :
    Allocates world
      (MemoryObject.at? (platform.heapPlace world (count * size)) (count * size))
      (platform.calloc count size world) := by
  unfold calloc
  cases MemoryObject.at? (platform.heapPlace world (count * size)) (count * size) with
  | none => exact ⟨⟨rfl, HeapGrows.refl _⟩, rfl, by simp⟩
  | some object =>
      exact ⟨⟨rfl, (world.keeps_addBlock _).heap⟩, rfl, by
        simp [FlatWorld.addBlock, FlatWorld.clear]⟩

theorem call_returns {name : String} {args : List (BitVec 64)} {world next : FlatWorld}
    {result : BitVec 64} (hcall : platform.call name args world = some (.returns result next)) :
    world.Keeps next ∧ (name = "malloc" ∨ name = "calloc" →
      Allocates world (platform.handsOut name args world) (result, next)) := by
  unfold call at hcall
  split_ifs at hcall with hmalloc hcalloc hfree
  · split at hcall
    next size =>
      obtain ⟨rfl, rfl⟩ := by simpa using hcall
      have hallocates : Allocates world _ (platform.malloc size.toNat world) :=
        malloc_allocates size.toNat world
      exact ⟨hallocates.keeps, fun _ => by simpa [handsOut, hmalloc] using hallocates⟩
    next => simp at hcall
  · split at hcall
    next count size =>
      obtain ⟨rfl, rfl⟩ := by simpa using hcall
      have hallocates : Allocates world _ (platform.calloc count.toNat size.toNat world) :=
        calloc_allocates count.toNat size.toNat world
      exact ⟨hallocates.keeps, fun _ => by simpa [handsOut, hcalloc] using hallocates⟩
    next => simp at hcall
  · split at hcall
    · obtain ⟨rfl, rfl⟩ := by simpa using hcall
      exact ⟨world.keeps_free _, fun h => by simp_all⟩
    · simp at hcall
  · exact ⟨platform.returns_keeps _ _ _ _ _ hcall, fun h => by simp_all⟩

theorem call_raises {name : String} {args : List (BitVec 64)} {world next : FlatWorld}
    {exception : BitVec 64}
    (hcall : platform.call name args world = some (.raises exception next)) :
    world.Keeps next := by
  unfold call at hcall
  split_ifs at hcall with hmalloc hcalloc hfree
  · split at hcall <;> simp at hcall
  · split at hcall <;> simp at hcall
  · split at hcall <;> simp at hcall
  · exact platform.raises_keeps _ _ _ _ _ hcall

variable (platform)

def interp : Interp (BitVec 64) FlatWorld where
  unit := 0
  constant := platform.constant
  alloca := fun id allocated count world =>
    let size := platform.sizeOf allocated * count.toNat
    (MemoryObject.at? (platform.stackPlace world size) size).map fun object =>
      (object.base, world.addObject ⟨object, id⟩)
  load := fun ty ptr world => some (world.read ptr (platform.sizeOf ty), world)
  store := fun ty value ptr world => some (world.write ptr (platform.sizeOf ty) value)
  getelementptr := fun ty base indices =>
    some (base + BitVec.ofInt 64 (platform.offset ty indices))
  convert := platform.convert
  execute := platform.execute
  choose := platform.choose
  resolve := platform.resolve
  external := platform.call
  enter := fun world => { world with stack := [] :: world.stack }
  leave := fun world => { world with stack := world.stack.tail }
  throw := platform.throw

end Platform

/-! ## Where pointers come from -/

/-- What a pointer was led away from, and what `getelementptr`s have added to its base. -/
inductive Origin where
  -- An object of an `alloca`.
  | stack (object : StackObject) (offset : ℤ)
  -- A block that a call of `malloc` or `calloc` has handed out.
  | heap (block : MemoryObject) (offset : ℤ)

def Origin.advance (further : ℤ) : Origin → Origin
  | .stack object offset => .stack object (offset + further)
  | .heap block offset => .heap block (offset + further)

structure Tracked where
  word : BitVec 64
  origin : Option Origin

namespace Tracked

def plain (word : BitVec 64) : Tracked :=
  ⟨word, none⟩

/-- Led away from the base of an object by `offset`. -/
def within (object : StackObject) (offset : ℤ) : Tracked :=
  ⟨object.base + BitVec.ofInt 64 offset, some (.stack object offset)⟩

/-- What `malloc` and `calloc` return: null, or the start of a block. -/
def handed (room : Option MemoryObject) : Tracked where
  word := room.elim 0 MemoryObject.base
  origin := room.map fun block => .heap block 0

def advance (value : Tracked) (offset : ℤ) : Tracked where
  word := value.word + BitVec.ofInt 64 offset
  origin := value.origin.map (Origin.advance offset)

theorem advance_within (object : StackObject) (offset further : ℤ) :
    (within object offset).advance further = within object (offset + further) := by
  simp [advance, within, Origin.advance, BitVec.ofInt_add, BitVec.add_assoc]

theorem advance_zero (value : Tracked) : value.advance 0 = value := by
  cases value with
  | mk word origin =>
      cases origin with
      | none => simp [advance]
      | some origin => cases origin <;> simp [advance, Origin.advance]

theorem map_word_plain (words : List (BitVec 64)) :
    (words.map plain).map word = words := by
  simp [plain, Function.comp_def]

end Tracked

namespace Platform

variable (platform : Platform)

/-- The same words.  An `alloca`, `malloc` and `calloc` give their results an origin and a
`getelementptr` keeps the one of its base; memory and other functions outside do not carry
any. -/
def tracked : Interp Tracked FlatWorld where
  unit := .plain 0
  constant := fun value => .plain (platform.constant value)
  alloca := fun id allocated count world =>
    let size := platform.sizeOf allocated * count.word.toNat
    (MemoryObject.at? (platform.stackPlace world size) size).map fun object =>
      (.within ⟨object, id⟩ 0, world.addObject ⟨object, id⟩)
  load := fun ty ptr world => some (.plain (world.read ptr.word (platform.sizeOf ty)), world)
  store := fun ty value ptr world => some (world.write ptr.word (platform.sizeOf ty) value.word)
  getelementptr := fun ty base indices =>
    some (base.advance (platform.offset ty (indices.map Tracked.word)))
  convert := fun src ty value => (platform.convert src ty value.word).map .plain
  execute := fun operation ty operands world =>
    (platform.execute operation ty (operands.map Tracked.word) world).map (Prod.map .plain id)
  choose := fun opcode operands => platform.choose opcode (operands.map Tracked.word)
  resolve := fun value => platform.resolve value.word
  external := fun name args world =>
    let words := args.map Tracked.word
    (platform.call name words world).map <| Reply.map fun result =>
      ⟨result, (platform.handsOut name words world).map fun block => .heap block 0⟩
  enter := platform.interp.enter
  leave := platform.interp.leave
  throw := fun exception => platform.throw exception.word

/-- No operation looks at an origin. -/
theorem tracked_erases : platform.tracked.Erases platform.interp Tracked.word where
  unit := rfl
  constant := fun _ => rfl
  alloca := by simp [tracked, interp, Function.comp_def, Tracked.within]
  load := fun _ _ _ => rfl
  store := fun _ _ _ _ => rfl
  getelementptr := fun _ _ _ => rfl
  convert := by simp [tracked, interp, Function.comp_def, Tracked.plain]
  execute := by
    intro operation ty operands world
    simp only [tracked, interp, Option.map_map]
    exact Option.map_id'.symm
  choose := fun _ _ => rfl
  resolve := fun _ => rfl
  external := by
    intro name args world
    simp only [tracked, interp, Option.map_map]
    cases platform.call name (args.map Tracked.word) world with
    | none => rfl
    | some reply => cases reply <;> rfl
  enter := rfl
  leave := rfl
  throw := fun _ => rfl

variable {platform} {name : String} {args : List Tracked} {world next : FlatWorld}

theorem tracked_returns {result : Tracked}
    (hreply : platform.tracked.external name args world = some (.returns result next)) :
    world.Keeps next ∧ (name = "malloc" ∨ name = "calloc" →
      ∃ room, result = .handed room ∧
        ∀ object ∈ room, ∃ block ∈ next.heap, block.toMemoryObject = object) := by
  obtain ⟨reply, hcall, heq⟩ := Option.map_eq_some_iff.mp hreply
  cases reply with
  | returns word world' =>
      obtain ⟨rfl, rfl⟩ := Reply.returns.inj heq
      obtain ⟨hkeeps, hallocates⟩ := call_returns hcall
      refine ⟨hkeeps, fun hname => ⟨platform.handsOut name _ world, ?_, (hallocates hname).added⟩⟩
      exact congrArg (Tracked.mk · _) (hallocates hname).result
  | raises exception world' => cases heq

theorem tracked_raises {exception : Tracked}
    (hreply : platform.tracked.external name args world = some (.raises exception next)) :
    world.Keeps next := by
  have hcall := platform.tracked_erases.external name args world
  rw [hreply] at hcall
  exact call_raises hcall

theorem tracked_execute {operation : Operation} {ty : Ty} {result : Tracked}
    (hexecute : platform.tracked.execute operation ty args world = some (result, next)) :
    world.Keeps next := by
  have hdone := platform.tracked_erases.execute operation ty args world
  rw [hexecute] at hdone
  exact platform.execute_keeps _ _ _ _ _ _ hdone

end Platform

/-- A small platform: objects go to slots of their own, one after the other, and
functions outside the module return zero. -/
def slotPlatform : Platform where
  sizeOf := fun ty =>
    match ty with
    | .int width => (width + 7) / 8
    | .ptr _ => 8
    | _ => 0
  offset := fun ty indices =>
    match ty with
    | .ptr (.int width) => ((width + 7) / 8 : ℕ) * (indices.headD 0).toInt
    | _ => 8 * (indices.headD 0).toInt
  constant := fun value =>
    match value with
    | .int _ value => BitVec.ofNat 64 value
    | _ => 0
  convert := fun _ _ value => some value
  choose := fun _ operands => some (if operands.headD 1 = 0 then 1 else 0)
  resolve := fun _ => none
  stackPlace := fun world size =>
    if size ≤ 64 then some (BitVec.ofNat 64 (0x1000 + 64 * world.stack.flatten.length)) else none
  heapPlace := fun world size =>
    if size ≤ 64 then some (BitVec.ofNat 64 (0x100000 + 64 * world.heap.length)) else none
  execute := fun _ _ _ _ => none
  external := fun _ _ world => some (.returns 0 world)
  throw := fun _ world => world
  execute_keeps := by simp
  returns_keeps := by
    intro name args world result next hreturns
    obtain ⟨_, rfl⟩ : 0 = result ∧ world = next := by simpa using hreturns
    exact ⟨rfl, HeapGrows.refl _⟩
  raises_keeps := by simp
  throw_keeps := fun _ _ => ⟨rfl, HeapGrows.refl _⟩

def emptyWorld : FlatWorld := ⟨[], [], fun _ => 0⟩

end Carat

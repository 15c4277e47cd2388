import Carat.DeviceRuns
import Carat.PolicyScan
import Carat.PolicyText
import Carat.StaleBytes

/-!
# The user-space application

The application lays its nodes out as a linked list, prints the address of the first
one with `%ld` and writes the text to the device; another run of it reads the policy
back and prints what it has read.

Every pointer survives the text, the upper half of the address space as a negative
number, provided the byte behind the text is no digit.  Every region of the
application is one byte shorter than the comment beside it says.
-/

namespace Carat

open SteeredTree FirstByKey

/-! ## A pointer as text -/

def decimalBytes (n : ℕ) : List UInt8 := (showDec n).map fun c => UInt8.ofNat c.toNat

/-- The C library's `sprintf(buf, "%ld", ..)`. -/
def sprintfLd (value : BitVec 64) : List UInt8 :=
  if value.msb then 45 :: decimalBytes (-value).toNat else decimalBytes value.toNat

def digitByte (digit : ℕ) : UInt8 := UInt8.ofNat (48 + digit)

theorem isDigit_digitByte {digit : ℕ} (hdigit : digit < 10) : isDigit (digitByte digit) = true := by
  revert digit
  decide

theorem digitByte_value {digit : ℕ} (hdigit : digit < 10) :
    (digitByte digit).toNat - 48 = digit := by
  revert digit
  decide

theorem decimalBytes_of_lt {digit : ℕ} (hdigit : digit < 10) :
    decimalBytes digit = [digitByte digit] := by
  rw [decimalBytes, showDec, Nat.toDigits_of_lt_base hdigit]
  revert digit
  decide

theorem decimalBytes_append {n digit : ℕ} (hn : 0 < n) (hdigit : digit < 10) :
    decimalBytes (10 * n + digit) = decimalBytes n ++ [digitByte digit] := by
  rw [← decimalBytes_of_lt hdigit, decimalBytes, decimalBytes, decimalBytes, ← List.map_append,
    showDec, showDec, showDec, Nat.toDigits_append_toDigits (by decide) hn hdigit]

theorem isDigit_decimalBytes (n : ℕ) : ∀ c ∈ decimalBytes n, isDigit c = true := by
  induction n using Nat.base_induction 10 (by decide) with
  | single digit hdigit => simp [decimalBytes_of_lt hdigit, isDigit_digitByte hdigit]
  | digit n digit hdigit hn ih =>
      rw [decimalBytes_append hn hdigit, List.forall_mem_append]
      exact ⟨ih, by simp [isDigit_digitByte hdigit]⟩

theorem parseDigits_decimalBytes (n : ℕ) :
    parseDigits (decimalBytes n) = BitVec.ofNat 64 n := by
  induction n using Nat.base_induction 10 (by decide) with
  | single digit hdigit =>
      simp [decimalBytes_of_lt hdigit, parseDigits, digitByte_value hdigit]
  | digit n digit hdigit hn ih =>
      rw [parseDigits] at ih ⊢
      rw [decimalBytes_append hn hdigit, List.foldl_append, ih]
      simp [digitByte_value hdigit, BitVec.ofNat_add, BitVec.ofNat_mul, mul_comm]

theorem length_decimalBytes (n : ℕ) : (decimalBytes n).length = Nat.log 10 n + 1 := by
  rw [decimalBytes, List.length_map, showDec, NumeralText.length_toDigits (by decide)]

theorem length_sprintfLd_le (value : BitVec 64) : (sprintfLd value).length ≤ bufSize := by
  have hlog : ∀ v : BitVec 64, Nat.log 10 v.toNat < 20 := fun v =>
    Nat.log_lt_of_lt_pow' (by decide) (v.isLt.trans (by decide))
  unfold sprintfLd
  split
  · have hlt := hlog (-value)
    rw [List.length_cons, length_decimalBytes, bufSize]
    omega
  · have hlt := hlog value
    rw [length_decimalBytes, bufSize]
    omega

theorem takeWhile_decimalBytes {n : ℕ} {tail : List UInt8}
    (htail : ∀ c, tail.head? = some c → isDigit c = false) :
    (decimalBytes n ++ tail).takeWhile isDigit = decimalBytes n := by
  rw [List.takeWhile_append_of_pos (isDigit_decimalBytes n)]
  cases tail with
  | nil => simp
  | cons c rest => simp [htail c rfl]

theorem decimalBytes_ne_nil (n : ℕ) : ∃ c rest, decimalBytes n = c :: rest ∧ isDigit c = true := by
  have hlength := length_decimalBytes n
  cases hbytes : decimalBytes n with
  | nil => simp [hbytes] at hlength
  | cons c rest => exact ⟨c, rest, rfl, isDigit_decimalBytes n c (by simp [hbytes])⟩

theorem isDigit_plain {c : UInt8} (hc : isDigit c = true) : isSpace c = false ∧ c ≠ 45 := by
  have hbytes : ∀ n < 256, isDigit (UInt8.ofNat n) = true →
      isSpace (UInt8.ofNat n) = false ∧ UInt8.ofNat n ≠ 45 := by decide +kernel
  simpa only [UInt8.ofNat_toNat] using hbytes c.toNat c.toNat_lt (by rwa [UInt8.ofNat_toNat])

/-- The kernel reads the pointer that the application has printed. -/
theorem sscanfLd_sprintfLd (value : BitVec 64) {tail : List UInt8}
    (htail : ∀ c, tail.head? = some c → isDigit c = false) :
    sscanfLd (sprintfLd value ++ tail) = some value := by
  unfold sprintfLd
  split
  · obtain ⟨c, rest, hbytes, hc⟩ := decimalBytes_ne_nil (-value).toNat
    have hdrop : ((45 :: decimalBytes (-value).toNat) ++ tail).dropWhile isSpace =
        45 :: (decimalBytes (-value).toNat ++ tail) := by
      rw [List.cons_append, List.dropWhile_cons_of_neg (by decide)]
    have hsign : ((decimalBytes (-value).toNat ++ tail).head?.map isDigit).getD false = true := by
      rw [hbytes]
      exact hc
    rw [sscanfLd_of_dropWhile hdrop, takeWhile_decimalBytes htail, parseDigits_decimalBytes, hsign,
      BitVec.ofNat_toNat, BitVec.setWidth_eq, BitVec.neg_neg]
    rfl
  · obtain ⟨c, rest, hbytes, hc⟩ := decimalBytes_ne_nil value.toNat
    have hdrop : (decimalBytes value.toNat ++ tail).dropWhile isSpace = c :: (rest ++ tail) := by
      rw [hbytes, List.cons_append, List.dropWhile_cons_of_neg (by simp [(isDigit_plain hc).1])]
    rw [sscanfLd_of_dropWhile hdrop, ← List.cons_append, ← hbytes, takeWhile_decimalBytes htail,
      parseDigits_decimalBytes, BitVec.ofNat_toNat, BitVec.setWidth_eq]
    simp [(isDigit_plain hc).2, hc]

/-! ## The application -/

/-- What a run of the application meets: the results of its `malloc`s, what its memory
holds besides its own nodes, what the kernel does with its call, and what lies in its
`buf` and behind it. -/
structure AppRun where
  malloc : ℕ → BitVec 64
  heap : BitVec 64 → Option NodeT
  copyFails : Bool
  stack : List UInt8
  kmalloc : ℕ → Bool
  buf : List Char

/-- The nodes from the `k`th on, each linked to the next. -/
def linkNodes (malloc : ℕ → BitVec 64) :
    ℕ → List PolicyNode → (BitVec 64 → Option NodeT) → BitVec 64 → Option NodeT
  | _, [], memory => memory
  | k, node :: rest, memory =>
      linkNodes malloc (k + 1) rest (Function.update memory (malloc k)
        (some ⟨node, if rest.isEmpty then 0 else malloc (k + 1)⟩))

namespace AppRun

variable (run : AppRun)

/-- `len += sprintf(buf, "%ld", ..); write(fd, buf, len);` -/
def write (value : BitVec 64) (memory : BitVec 64 → Option NodeT) : WriteCall where
  ubuf := sprintfLd value
  copyFails := run.copyFails
  stack := run.stack
  memory := memory
  kmalloc := run.kmalloc

def passPolicy (nodes : List PolicyNode) : WriteCall :=
  run.write (run.malloc 0) (linkNodes run.malloc 0 nodes run.heap)

end AppRun

/-- The region of the application's test 2. -/
def singleNodePolicy : List PolicyNode := [⟨0x0000000000000000, 0xffffffffffffffff, 5⟩]

/-- `main` after `atoi(argv[1])`: the device is opened anew, at position 0, and used
once or not at all. -/
def AppRun.main (run : AppRun) (fuel : ℕ) (input : ℤ) : Option DeviceOp :=
  if input = 0 then some (.input fuel (run.write 5 run.heap) 0)
  else if input = 1 then some (.input fuel (run.write (run.malloc 0) run.heap) 0)
  else if input = 2 then some (.input fuel (run.passPolicy singleNodePolicy) 0)
  else if input = 3 then some (.input fuel (run.passPolicy multiNodePolicy) 0)
  else if input = 4 then some (.output ⟨bufSize, run.copyFails⟩ 0)
  else none

/-- `printf(buf)`: what stands before the NUL, unless a `%` asks for arguments. -/
def printf (buf : List Char) : Option (List Char) :=
  if '%' ∈ buf.takeWhile (· ≠ '\x00') then none else some (buf.takeWhile (· ≠ '\x00'))

/-- What `read` has left in `buf`. -/
def AppRun.bufAfter (run : AppRun) (text : List Char) : List Char :=
  text ++ run.buf.drop text.length

/-! ## What arrives in the kernel -/

/-- The mallocs for these nodes are different objects and none has failed. -/
structure AppRun.Allocates (run : AppRun) (nodes : List PolicyNode) : Prop where
  nonnull : ∀ k < nodes.length, run.malloc k ≠ 0
  distinct : ∀ j < nodes.length, ∀ k < nodes.length, run.malloc j = run.malloc k → j = k

/-- The kernel copies the text, allocates what it needs, and no digit lies behind the
text. -/
structure AppRun.Accepted (run : AppRun) (nodes : List PolicyNode) : Prop where
  copied : run.copyFails = false
  allocated : ∀ allocs, allocs ≤ nodes.length → run.kmalloc allocs = true
  stale : ∀ c, (run.stack.drop (sprintfLd (run.malloc 0)).length).head? = some c →
    isDigit c = false

theorem linkNodes_of_ne {malloc : ℕ → BitVec 64} {address : BitVec 64} {nodes : List PolicyNode}
    {k : ℕ} (memory : BitVec 64 → Option NodeT)
    (hne : ∀ j, k ≤ j → j < k + nodes.length → malloc j ≠ address) :
    linkNodes malloc k nodes memory address = memory address := by
  induction nodes generalizing k memory with
  | nil => rfl
  | cons node rest ih =>
      rw [List.length_cons] at hne
      rw [linkNodes, ih _ fun j hlow hhigh => hne j (by omega) (by omega),
        Function.update_of_ne (hne k le_rfl (by omega)).symm]

theorem linkNodes_listAt {malloc : ℕ → BitVec 64} {nodes : List PolicyNode} {k : ℕ}
    (memory : BitVec 64 → Option NodeT) (hne : nodes ≠ [])
    (hnonnull : ∀ j, k ≤ j → j < k + nodes.length → malloc j ≠ 0)
    (hdistinct : ∀ i j, k ≤ i → i < j → j < k + nodes.length → malloc j ≠ malloc i) :
    ListAt (linkNodes malloc k nodes memory) (malloc k) nodes := by
  induction nodes generalizing k memory with
  | nil => exact absurd rfl hne
  | cons node rest ih =>
      rw [List.length_cons] at hnonnull hdistinct
      have hhead : linkNodes malloc k (node :: rest) memory (malloc k) =
          some ⟨node, if rest.isEmpty then 0 else malloc (k + 1)⟩ := by
        rw [linkNodes, linkNodes_of_ne _ fun j hlow hhigh =>
          hdistinct k j le_rfl (by omega) (by omega), Function.update_self]
      refine .cons (hnonnull k le_rfl (by omega)) hhead ?_
      cases rest with
      | nil => exact .nil
      | cons other rest =>
          exact ih _ (List.cons_ne_nil _ _)
            (fun j hlow hhigh => hnonnull j (by omega) (by omega))
            (fun i j hlow hlt hhigh => hdistinct i j (by omega) hlt (by omega))

theorem AppRun.passPolicy_delivers {run : AppRun} {nodes : List PolicyNode} (hne : nodes ≠ [])
    (hallocates : run.Allocates nodes) (haccepted : run.Accepted nodes) :
    (run.passPolicy nodes).Delivers 0 nodes where
  position := le_rfl
  count := length_sprintfLd_le _
  copied := haccepted.copied
  parsed := ⟨run.malloc 0, sscanfLd_sprintfLd _ haccepted.stale,
    linkNodes_listAt _ hne (fun j _ hhigh => hallocates.nonnull j (by omega))
      fun i j _ hlt hhigh heq =>
        hlt.ne' (hallocates.distinct j (by omega) i (by omega) heq)⟩
  allocated := haccepted.allocated

/-! ## What stays in force -/

section Device

variable (kernel : KernelRbtree)

theorem DeviceOp.policyAfter_of_not_delivers {op : DeviceOp} (hnot : ¬op.Delivers)
    (testPolicy : Policy) : op.policyAfter kernel testPolicy = testPolicy := by
  cases op with
  | guard _ _ | output _ _ => rfl
  | input fuel call ppos =>
      cases hinput : inputPolicy kernel fuel call ppos testPolicy with
      | faults fault => simp [policyAfter, hinput]
      | runsOn => simp [policyAfter, hinput]
      | returns result =>
          rcases inputPolicy_cases hinput with ⟨_, rfl⟩ | ⟨nodes, hnodes, hfuel, _⟩
          · simp [policyAfter, hinput]
          · exact absurd ⟨nodes, hnodes, hfuel⟩ hnot

/-- The list delivered last is in force, whatever was done before and since. -/
theorem runDevice_latest {call : WriteCall} {ppos : ℤ} {nodes : List PolicyNode}
    (hdelivers : call.Delivers ppos nodes) {fuel : ℕ} (hfuel : nodes.length ≤ fuel)
    (done later : List DeviceOp) (hlater : ∀ op ∈ later, ¬op.Delivers) :
    runDevice kernel (done ++ .input fuel call ppos :: later) = publishedPolicy kernel nodes := by
  induction later using List.reverseRecOn with
  | nil =>
      rw [runDevice, List.foldl_append, List.foldl_cons, List.foldl_nil]
      simp [DeviceOp.policyAfter, inputPolicy_publishes kernel hdelivers hfuel]
  | append_singleton later op ih =>
      have hrest := ih fun other hother => hlater other (by simp [hother])
      rw [runDevice] at hrest ⊢
      rw [← List.cons_append, ← List.append_assoc, List.foldl_append, hrest, List.foldl_cons,
        List.foldl_nil, DeviceOp.policyAfter_of_not_delivers kernel (hlater op (by simp))]

end Device

/-! ## What the comments promise -/

/-- A range of addresses, both ends included. -/
structure Span where
  first : BitVec 64
  last : BitVec 64
  flags : BitVec 8
  deriving DecidableEq, Repr

/-- The application's node for a range: `len` is one short. -/
def Span.node (span : Span) : PolicyNode := ⟨span.first, span.last - span.first, span.flags⟩

def Span.Contains (span : Span) (address : BitVec 64) : Prop :=
  span.first ≤ address ∧ address ≤ span.last

instance (span : Span) (address : BitVec 64) : Decidable (span.Contains address) :=
  inferInstanceAs (Decidable (_ ∧ _))

/-- The ranges as the application's comments give them. -/
def commentedSpans (input : ℤ) : Option (List Span) :=
  if input = 2 then some [⟨0x0000000000000000, 0xffffffffffffffff, 5⟩]
  else if input = 3 then
    some
      [⟨0x0000000000000000, 0x0fffffffffffffff, 0⟩,
        ⟨0x1000000000000000, 0x7fffffffffffffff, 7⟩,
        ⟨0x8000000000000000, 0xefffffffffffffff, 1⟩,
        ⟨0xf000000000000000, 0xfffffffeffffffff, 2⟩,
        ⟨0xffffffff00000000, 0xffffffffffffffff, 4⟩]
  else none

/-- Ranges one behind the other that leave no address out. -/
structure Covering (spans : List Span) : Prop where
  proper : ∀ span ∈ spans, span.first < span.last
  rising : spans.Pairwise fun x y => x.last < y.first
  complete : ∀ address, ∃ span ∈ spans, span.Contains address

theorem Span.covers_iff {span : Span} (hproper : span.first < span.last) (address : BitVec 64) :
    span.node.Covers address ↔ span.Contains address ∧ address ≠ span.last := by
  unfold Span.node PolicyNode.Covers Span.Contains
  bv_omega

theorem Covering.wellFormed {spans : List Span} (hspans : Covering spans) :
    WellFormedPolicy (spans.map Span.node) where
  nonempty := by
    rw [List.forall_mem_map]
    intro span hspan
    have hproper := hspans.proper span hspan
    unfold Span.node
    bv_omega
  disjoint := by
    rw [List.pairwise_map]
    refine hspans.rising.imp_of_mem fun {x y} hx hy hlt => ?_
    rw [MemoryRegion.disjoint_iff_forall_not_covers]
    rintro address ⟨hxcovers, hycovers⟩
    have hxin := ((Span.covers_iff (hspans.proper x hx) address).mp hxcovers).1
    have hyin := ((Span.covers_iff (hspans.proper y hy) address).mp hycovers).1
    unfold Span.Contains at hxin hyin
    bv_omega
  bounded := by
    rw [List.forall_mem_map]
    intro span hspan
    have hproper := hspans.proper span hspan
    unfold Span.node
    bv_omega

/-- The scan finds what the comments say, save at the last address of a range. -/
theorem Covering.scanGuard_eq {spans : List Span} (hspans : Covering spans) (address : BitVec 64)
    (flags : BitVec 32) :
    ∃ span ∈ spans, span.Contains address ∧ scanGuard (spans.map Span.node) address flags =
      if address = span.last then .noPolicy
      else if span.node.Permits flags then .allowed else .disallowed := by
  obtain ⟨span, hspan, hcontains⟩ := hspans.complete address
  refine ⟨span, hspan, hcontains, ?_⟩
  have honly : ∀ other ∈ spans, other.Contains address → other = span := by
    intro other hother hother'
    by_contra hne
    have hsymm : Std.Symm fun x y : Span => x.last < y.first ∨ y.last < x.first :=
      ⟨fun _ _ h => h.symm⟩
    have happart : other.last < span.first ∨ span.last < other.first :=
      (hspans.rising.imp fun {x y} h => (Or.inl h : x.last < y.first ∨ y.last < x.first)).forall
        hother hspan hne
    unfold Span.Contains at hcontains hother'
    bv_omega
  by_cases hlast : address = span.last
  · rw [if_pos hlast]
    have hnone : (spans.map Span.node).find? (fun node => node.Covers address) = none := by
      rw [List.find?_eq_none, List.forall_mem_map]
      intro other hother hcovers
      obtain ⟨hother', hne⟩ :=
        (Span.covers_iff (hspans.proper other hother) address).mp (of_decide_eq_true hcovers)
      exact hne (honly other hother hother' ▸ hlast)
    rw [scanGuard, hnone]
  · rw [if_neg hlast]
    have hcovers := (Span.covers_iff (hspans.proper span hspan) address).mpr ⟨hcontains, hlast⟩
    have hfound : (spans.map Span.node).find? (fun node => node.Covers address) =
        some span.node := by
      cases hfind : (spans.map Span.node).find? (fun node => node.Covers address) with
      | none =>
          have hnot := List.find?_eq_none.mp hfind _ (List.mem_map_of_mem hspan)
          simp [hcovers] at hnot
      | some node =>
          obtain ⟨other, hother, rfl⟩ := List.mem_map.mp (List.mem_of_find?_eq_some hfind)
          have hother' : other.node.Covers address := by simpa using List.find?_some hfind
          rw [honly other hother
            ((Span.covers_iff (hspans.proper other hother) address).mp hother').1]
    rw [scanGuard, hfound]

theorem commentedSpans_cases {input : ℤ} {spans : List Span}
    (hspans : commentedSpans input = some spans) :
    Covering spans ∧ spans ≠ [] ∧
      keptRegions (spans.map Span.node) = (spans.map Span.node).map PolicyNode.toRegion ∧
      renderedLength (spans.map Span.node) < bufSize ∧
      ∀ (run : AppRun) fuel, run.main fuel input =
        some (.input fuel (run.passPolicy (spans.map Span.node)) 0) := by
  unfold commentedSpans at hspans
  by_cases htwo : input = 2
  · subst input
    rw [if_pos rfl] at hspans
    obtain rfl := Option.some.inj hspans
    refine ⟨⟨by decide, by decide, fun address => ?_⟩, by simp, by decide, by decide,
      fun _ _ => rfl⟩
    exact ⟨_, List.mem_singleton_self _, by unfold Span.Contains; bv_omega⟩
  · rw [if_neg htwo] at hspans
    by_cases hthree : input = 3
    · subst input
      rw [if_pos rfl] at hspans
      obtain rfl := Option.some.inj hspans
      refine ⟨⟨by decide, by decide, fun address => ?_⟩, by simp, by decide, by decide,
        fun _ _ => rfl⟩
      simp only [List.exists_mem_cons_iff, Span.Contains]
      bv_omega
    · simp [hthree] at hspans

/-! ## What is printed -/

/-- Everything that is printed besides figures. -/
def labelChars : List Char := "Region addr: lens flag\n".toList

/-- A character that is neither a figure nor in a label is never printed. -/
theorem not_mem_outputText {c : Char} (hdigit : NumeralText.digitValue c = none)
    (hlabel : c ∉ labelChars) (num : ℕ) (regions : List MemoryRegion) :
    c ∉ outputText num regions := by
  have hdec : ∀ n, c ∉ showDec n := NumeralText.not_mem_toDigits (by decide) (by decide) hdigit
  have hhex : ∀ {w : ℕ} (value : BitVec w), c ∉ showHex value := fun value =>
    NumeralText.not_mem_toDigits (by decide) (by decide) hdigit value.toNat
  have hplain : ∀ {text : List Char}, text ⊆ labelChars → c ∉ text := fun htext hmem =>
    hlabel (htext hmem)
  have hregion : c ∉ "Region ".toList := hplain (by decide)
  have hcolon : c ∉ ": ".toList := hplain (by decide)
  have hend : c ∉ ['\n'] := hplain (by decide)
  have hspace : c ≠ ' ' := by
    rintro rfl
    exact hlabel (by decide)
  have hfield : ∀ (n : ℕ) (field value : List Char), c ∉ field → c ∉ value →
      c ∉ showField n field value := by
    intro n field value hname hvalue hmem
    unfold showField at hmem
    rw [List.mem_append, List.mem_append, List.mem_append, List.mem_append, List.mem_append,
      List.mem_cons] at hmem
    rcases hmem with ((((h | h) | h | h) | h) | h) | h
    · exact hregion h
    · exact hdec n h
    · exact hspace h
    · exact hname h
    · exact hcolon h
    · exact hvalue h
    · exact hend h
  induction regions generalizing num with
  | nil => simp [outputText]
  | cons region rest ih =>
      rw [outputText, List.mem_append, not_or]
      refine ⟨fun hmem => ?_, ih (num + 1)⟩
      obtain ⟨line, hline, hc⟩ := List.mem_flatten.mp hmem
      simp only [regionLines, List.mem_cons, List.not_mem_nil, or_false] at hline
      rcases hline with rfl | rfl | rfl
      · exact hfield num _ _ (hplain (by decide)) (hhex _) hc
      · exact hfield num _ _ (hplain (by decide)) (hhex _) hc
      · exact hfield num _ _ (hplain (by decide)) (hhex _) hc

theorem printf_bufAfter {run : AppRun} {text : List Char} (hnul : '\x00' ∉ text)
    (hpercent : '%' ∉ text) (hbehind : (run.buf.drop text.length).head? = some '\x00') :
    printf (run.bufAfter text) = some text := by
  obtain ⟨rest, hrest⟩ : ∃ rest, run.buf.drop text.length = '\x00' :: rest :=
    List.head?_eq_some_iff.mp hbehind
  have htake : (run.bufAfter text).takeWhile (· ≠ '\x00') = text := by
    rw [AppRun.bufAfter, hrest, List.takeWhile_append_of_pos, List.takeWhile_cons_of_neg (by simp),
      List.append_nil]
    intro c hc
    have hne : c ≠ '\x00' := fun heq => hnul (heq ▸ hc)
    simpa using hne
  rw [printf, htake, if_neg hpercent]

/-! ## The application and the device together -/

/-- **The application's policies, end to end.**  After its test 2 or 3, until another
list is delivered, the guard decides as the comments say, except that the last address
of every range has no policy; and its test 4 prints exactly these regions when a NUL
happens to lie behind what it has read. -/
theorem app_policy_inForce {kernel : KernelRbtree} (hkernel : kernel.KeepsOrder) {run : AppRun}
    {input : ℤ} {spans : List Span} (hinput : commentedSpans input = some spans)
    (hallocates : run.Allocates (spans.map Span.node))
    (haccepted : run.Accepted (spans.map Span.node)) {fuel : ℕ} (hfuel : spans.length ≤ fuel)
    {op : DeviceOp} (hmain : run.main fuel input = some op) (done later : List DeviceOp)
    (hlater : ∀ op ∈ later, ¬op.Delivers) :
    (∀ address flags, ∃ span ∈ spans, span.Contains address ∧
      texasGuard (runDevice kernel (done ++ op :: later)) address flags =
        .returns (if address = span.last then .noPolicy
          else if span.node.Permits flags then .allowed else .disallowed)) ∧
    ∃ text, readPolicyText text = some (spans.map fun span => span.node.toRegion) ∧
      ∀ reader : AppRun, reader.copyFails = false →
        ∃ call, reader.main fuel 4 = some (.output call 0) ∧
          outputPolicy (runDevice kernel (done ++ op :: later)) call 0 =
            .returns ⟨text.length, text.length, text⟩ ∧
          ((reader.buf.drop text.length).head? = some '\x00' →
            printf (reader.bufAfter text) = some text) := by
  obtain ⟨hcovering, hne, hkept, hfits, hwrites⟩ := commentedSpans_cases hinput
  obtain rfl := Option.some.inj (hmain.symm.trans (hwrites run fuel))
  have hdelivers := AppRun.passPolicy_delivers (by simpa using hne) hallocates haccepted
  rw [runDevice_latest kernel hdelivers (by simpa using hfuel) done later hlater]
  refine ⟨fun address flags => ?_, outputText 0 (keptRegions (spans.map Span.node)), ?_, ?_⟩
  · obtain ⟨span, hspan, hcontains, hscan⟩ := hcovering.scanGuard_eq address flags
    refine ⟨span, hspan, hcontains, ?_⟩
    rw [← hscan]
    simp only [texasGuard, publishedPolicy, lookupRegion_wellFormed hkernel hcovering.wellFormed,
      guardVerdict_find?]
  · rw [readPolicyText_outputText, hkept, List.map_map]
    rfl
  · intro reader hcopies
    refine ⟨⟨bufSize, reader.copyFails⟩, rfl, ?_, fun hbehind => ?_⟩
    · rw [outputPolicy_published hkernel hfits (by simp), hcopies, length_outputText_keptRegions]
      rfl
    · exact printf_bufAfter (not_mem_outputText (by decide) (by decide) 0 _)
        (not_mem_outputText (by decide) (by decide) 0 _) hbehind

/-- Test 3 on a clean stack, after a guard that found no policy. -/
def orderlyRun : AppRun where
  malloc := fun k => BitVec.ofNat 64 (0xffff888000000000 + 32 * k)
  heap := fun _ => none
  copyFails := false
  stack := List.replicate 1000 0
  kmalloc := fun _ => true
  buf := List.replicate 1001 '\x00'

theorem orderlyRun_stale (n : ℕ) (c : UInt8) (hc : (orderlyRun.stack.drop n).head? = some c) :
    isDigit c = false := by
  have hmem := List.mem_of_mem_drop (List.mem_of_head? hc)
  rw [List.eq_of_mem_replicate hmem]
  rfl

theorem app_policy_inForce_multiNodePolicy :
    ∃ op, orderlyRun.main 5 3 = some op ∧
      texasGuard (runDevice bottomUpRbtree ([.guard 0 1] ++ op :: [.output ⟨1000, false⟩ 0]))
        0x1000000000000000 2 = .returns .allowed ∧
      texasGuard (runDevice bottomUpRbtree ([.guard 0 1] ++ op :: [.output ⟨1000, false⟩ 0]))
        0x7fffffffffffffff 2 = .returns .noPolicy := by
  obtain ⟨hguards, _⟩ := app_policy_inForce bottomUpRbtree_keepsOrder
    (rfl : commentedSpans 3 = some _) ⟨by decide, by decide⟩
    ⟨rfl, fun _ _ => rfl, orderlyRun_stale _⟩
    (by decide) (rfl : orderlyRun.main 5 3 = some _) [.guard 0 1] [.output ⟨1000, false⟩ 0]
    (by simp [DeviceOp.Delivers])
  refine ⟨_, rfl, ?_, ?_⟩
  · obtain ⟨span, hspan, hcontains, hverdict⟩ := hguards 0x1000000000000000 2
    fin_cases hspan <;> first | exact absurd hcontains (by decide) | exact hverdict
  · obtain ⟨span, hspan, hcontains, hverdict⟩ := hguards 0x7fffffffffffffff 2
    fin_cases hspan <;> first | exact absurd hcontains (by decide) | exact hverdict

end Carat

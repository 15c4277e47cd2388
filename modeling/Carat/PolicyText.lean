import Carat.NumeralText
import Carat.PolicyContent
import Mathlib.Algebra.BigOperators.Group.Finset.Basic

/-!
# The text of a policy

What `output_policy` prints can be read back, line by line, to the regions that
were printed, so no two policies print the same text.

Nothing in the printing loop looks at the room left in the buffer.  The length of
the text is a sum over the kept nodes, of digit counts that do not depend on the
order of the nodes.
-/

namespace Carat

open SteeredTree FirstByKey NumeralText

/-! ## Reading a policy back -/

def fieldLabel (num : ℕ) (field : List Char) : List Char :=
  "Region ".toList ++ showDec num ++ ' ' :: field ++ ": ".toList

def readField {w : ℕ} (label line : List Char) : Option (BitVec w) :=
  (label.isPrefixOf? line).bind fun value =>
    (readNumeral 16 value).bind fun n =>
      if n < 2 ^ w then some (BitVec.ofNat w n) else none

/-- Three lines a region, numbered without gaps, and nothing after the last. -/
def readRegions : ℕ → List (List Char) → Option (List MemoryRegion)
  | num, addrLine :: lenLine :: flagsLine :: rest =>
      (readField (fieldLabel num "addr".toList) addrLine).bind fun addr =>
        (readField (fieldLabel num "len".toList) lenLine).bind fun len =>
          (readField (fieldLabel num "flags".toList) flagsLine).bind fun protect =>
            (readRegions (num + 1) rest).map fun regions => ⟨addr, len, protect⟩ :: regions
  | _, [[]] => some []
  | _, _ => none

def readPolicyText (text : List Char) : Option (List MemoryRegion) :=
  readRegions 0 (text.splitOn '\n')

def textLines : ℕ → List MemoryRegion → List (List Char)
  | _, [] => []
  | num, region :: rest =>
      (fieldLabel num "addr".toList ++ showHex region.addr) ::
        (fieldLabel num "len".toList ++ showHex region.len) ::
          (fieldLabel num "flags".toList ++ showHex region.protect) :: textLines (num + 1) rest

theorem showField_eq (num : ℕ) (field value : List Char) :
    showField num field value = (fieldLabel num field ++ value) ++ ['\n'] := by
  unfold showField fieldLabel
  simp only [List.append_assoc, List.cons_append]

theorem readRegions_cons (num : ℕ) (addrLine lenLine flagsLine : List Char)
    (rest : List (List Char)) :
    readRegions num (addrLine :: lenLine :: flagsLine :: rest) =
      (readField (fieldLabel num "addr".toList) addrLine).bind fun addr =>
        (readField (fieldLabel num "len".toList) lenLine).bind fun len =>
          (readField (fieldLabel num "flags".toList) flagsLine).bind fun protect =>
            (readRegions (num + 1) rest).map fun regions => ⟨addr, len, protect⟩ :: regions := by
  rw [readRegions]

theorem outputText_eq (num : ℕ) (regions : List MemoryRegion) :
    outputText num regions = (textLines num regions).flatMap fun line => line ++ ['\n'] := by
  induction regions generalizing num with
  | nil => rfl
  | cons region rest ih =>
      simp only [outputText, regionLines, showField_eq, ih, textLines, List.flatten_cons,
        List.flatten_nil, List.append_nil, List.flatMap_cons, List.append_assoc]

theorem isPrefixOf?_append {α : Type} [BEq α] [LawfulBEq α] (label value : List α) :
    label.isPrefixOf? (label ++ value) = some value := by
  induction label with
  | nil => rfl
  | cons x rest ih => simp [List.isPrefixOf?, ih]

theorem readField_label {w : ℕ} (label : List Char) (value : BitVec w) :
    readField label (label ++ showHex value) = some value := by
  have hvalue := value.isLt
  rw [readField, isPrefixOf?_append, Option.bind_some, showHex,
    readNumeral_toDigits (by decide) (by decide), Option.bind_some, if_pos hvalue,
    BitVec.ofNat_toNat, BitVec.setWidth_eq]

theorem readRegions_textLines (num : ℕ) (regions : List MemoryRegion) :
    readRegions num (textLines num regions ++ [[]]) = some regions := by
  induction regions generalizing num with
  | nil => rfl
  | cons region rest ih =>
      rw [textLines, List.cons_append, List.cons_append, List.cons_append, readRegions_cons,
        readField_label, readField_label, readField_label, ih]
      rfl

theorem newline_not_mem_fieldLabel {field : List Char} (hfield : '\n' ∉ field) (num : ℕ) :
    '\n' ∉ fieldLabel num field := by
  have hnum : '\n' ∉ showDec num := not_mem_toDigits (by decide) (by decide) (by decide) num
  unfold fieldLabel
  simp [hnum, hfield]

theorem newline_not_mem_textLines (num : ℕ) (regions : List MemoryRegion) :
    ∀ line ∈ textLines num regions, '\n' ∉ line := by
  induction regions generalizing num with
  | nil => simp [textLines]
  | cons region rest ih =>
      have hhex : ∀ {w : ℕ} (value : BitVec w), '\n' ∉ showHex value := fun value =>
        not_mem_toDigits (by decide) (by decide) (by decide) value.toNat
      have hlabel : ∀ {field : List Char}, '\n' ∉ field → '\n' ∉ fieldLabel num field :=
        fun hfield => newline_not_mem_fieldLabel hfield num
      simp only [textLines, List.forall_mem_cons, List.mem_append, not_or]
      exact ⟨⟨hlabel (by decide), hhex _⟩, ⟨hlabel (by decide), hhex _⟩,
        ⟨hlabel (by decide), hhex _⟩, ih (num + 1)⟩

theorem readPolicyText_outputText (regions : List MemoryRegion) :
    readPolicyText (outputText 0 regions) = some regions := by
  rw [readPolicyText, outputText_eq, splitOn_flatMap_newline (newline_not_mem_textLines 0 regions),
    readRegions_textLines]

theorem outputText_injective : Function.Injective (outputText 0) := by
  intro first second htext
  have hread := congrArg readPolicyText htext
  rw [readPolicyText_outputText, readPolicyText_outputText] at hread
  exact Option.some.inj hread

/-! ## The length of the text -/

def decDigits (n : ℕ) : ℕ := Nat.log 10 n + 1

def hexDigits {w : ℕ} (n : BitVec w) : ℕ := Nat.log 16 n.toNat + 1

/-- The hexadecimal digits among the three lines of a node. -/
def valueDigits (node : PolicyNode) : ℕ :=
  hexDigits node.addr + hexDigits node.len + hexDigits node.flags

/-- What the three lines of each region come to, all regions together. -/
def renderedLength (nodes : List PolicyNode) : ℕ :=
  ∑ i ∈ Finset.range (firstNodes nodes).length, (45 + 3 * decDigits i) +
    ((firstNodes nodes).map valueDigits).sum

theorem length_showDec (n : ℕ) : (showDec n).length = decDigits n :=
  length_toDigits (by decide) n

theorem length_showHex {w : ℕ} (n : BitVec w) : (showHex n).length = hexDigits n :=
  length_toDigits (by decide) n.toNat

theorem length_regionLines (num : ℕ) (region : MemoryRegion) :
    (regionLines num region).flatten.length =
      45 + 3 * decDigits num +
        (hexDigits region.addr + hexDigits region.len + hexDigits region.protect) := by
  unfold regionLines showField
  simp [length_showDec, length_showHex]
  omega

theorem length_outputText (num : ℕ) (regions : List MemoryRegion) :
    (outputText num regions).length =
      ∑ i ∈ Finset.range regions.length, (45 + 3 * decDigits (num + i)) +
        (regions.map fun region =>
          hexDigits region.addr + hexDigits region.len + hexDigits region.protect).sum := by
  induction regions generalizing num with
  | nil => simp [outputText]
  | cons region rest ih =>
      have hshift : ∀ i, num + 1 + i = num + (i + 1) := fun i => by omega
      rw [outputText, List.length_append, length_regionLines, ih, List.length_cons,
        Finset.sum_range_succ', List.map_cons, List.sum_cons]
      simp only [hshift, Nat.add_zero]
      omega

theorem length_outputText_keptRegions (nodes : List PolicyNode) :
    (outputText 0 (keptRegions nodes)).length = renderedLength nodes := by
  have hperm := keptRegions_perm nodes
  have hlength : (keptRegions nodes).length = (firstNodes nodes).length := by
    rw [hperm.length_eq, List.length_map]
  rw [length_outputText, hlength, (hperm.map _).sum_eq, List.map_map]
  simp only [Nat.zero_add]
  rfl

section Published

variable {kernel : KernelRbtree} (hkernel : kernel.KeepsOrder)

include hkernel

theorem rendersIn_iff (nodes : List PolicyNode) :
    RendersIn (listToTree kernel .nil nodes) ↔ renderedLength nodes < bufSize := by
  rw [RendersIn, inorder_listToTree hkernel, length_outputText_keptRegions]

theorem outputPolicy_published {nodes : List PolicyNode}
    (hfits : renderedLength nodes < bufSize) {read : ReadCall} {ppos : ℤ}
    (hopen : ¬(ppos > 0 ∨ read.count < bufSize)) :
    outputPolicy (publishedPolicy kernel nodes) read ppos =
      if read.copyFails then .returns ⟨-efault, ppos, []⟩
      else .returns ⟨renderedLength nodes, renderedLength nodes,
        outputText 0 (keptRegions nodes)⟩ := by
  have hloop := outputLoop_start (listToTree kernel .nil nodes)
  rw [if_pos ((rendersIn_iff hkernel nodes).mpr hfits), inorder_listToTree hkernel] at hloop
  simp only [outputPolicy, hopen, if_false, publishedPolicy, inorder_listToTree hkernel, hloop,
    Outcome.bind_returns, length_outputText_keptRegions]

/-- What is written is read back: the kept nodes by rising address, in a text
from which they can be recovered. -/
theorem outputPolicy_inputPolicy {fuel : ℕ} {call : WriteCall} {ppos : ℤ}
    {testPolicy : Policy} {result : WriteResult} {nodes : List PolicyNode}
    (hreturns : inputPolicy kernel fuel call ppos testPolicy = .returns result)
    (hsuccess : 0 < result.ret) (hcarries : call.Carries nodes)
    (hfits : renderedLength nodes < bufSize) :
    (∀ region, region ∈ keptRegions nodes ↔ ∃ before node after,
      nodes = before ++ node :: after ∧ (∀ earlier ∈ before, earlier.addr ≠ node.addr) ∧
        node.toRegion = region) ∧
    (keptRegions nodes).Pairwise (fun x y => x.addr < y.addr) ∧
    (∀ read rpos, rpos ≤ 0 → bufSize ≤ read.count → read.copyFails = false →
      outputPolicy result.testPolicy read rpos =
        .returns ⟨(outputText 0 (keptRegions nodes)).length,
          (outputText 0 (keptRegions nodes)).length, outputText 0 (keptRegions nodes)⟩) ∧
    readPolicyText (outputText 0 (keptRegions nodes)) = some (keptRegions nodes) ∧
    ∀ first second, outputText 0 first = outputText 0 second → first = second := by
  obtain ⟨_, hpublished⟩ := inputPolicy_success hreturns hsuccess hcarries
  refine ⟨?_, keptRegions_ordered nodes, ?_, readPolicyText_outputText _,
    fun first second htext => outputText_injective htext⟩
  · intro region
    rw [mem_keptRegions]
    constructor
    · rintro ⟨node, hnode, rfl⟩
      obtain ⟨before, after, hsplit, hbefore⟩ := mem_firstByKey_iff.mp hnode
      exact ⟨before, node, after, hsplit, hbefore, rfl⟩
    · rintro ⟨before, node, after, hsplit, hbefore, rfl⟩
      exact ⟨node, mem_firstByKey_iff.mpr ⟨before, after, hsplit, hbefore⟩, rfl⟩
  · intro read rpos hpos hcount hcopy
    rw [hpublished, outputPolicy_published hkernel hfits (by omega), hcopy,
      length_outputText_keptRegions]
    rfl

/-- A policy that a write has published can be printed without leaving the buffer
exactly when its text is shorter than the buffer. -/
theorem outputPolicy_staysInside_iff {fuel : ℕ} {call : WriteCall} {ppos : ℤ}
    {testPolicy : Policy} {result : WriteResult} {nodes : List PolicyNode}
    (hreturns : inputPolicy kernel fuel call ppos testPolicy = .returns result)
    (hsuccess : 0 < result.ret) (hcarries : call.Carries nodes) :
    (∀ read rpos, bufSize ≤ read.count → ∃ output,
      outputPolicy result.testPolicy read rpos = .returns output ∧
        output.ret ≤ read.count) ↔
    renderedLength nodes < bufSize := by
  obtain ⟨_, hpublished⟩ := inputPolicy_success hreturns hsuccess hcarries
  rw [hpublished]
  constructor
  · intro hinside
    obtain ⟨output, houtput, _⟩ := hinside ⟨bufSize, false⟩ 0 le_rfl
    rw [← rendersIn_iff hkernel]
    by_contra hover
    have hloop := outputLoop_start (listToTree kernel .nil nodes)
    rw [if_neg hover] at hloop
    simp [outputPolicy, publishedPolicy, hloop] at houtput
  · intro hfits read rpos hcount
    by_cases hpos : rpos > 0
    · exact ⟨⟨0, rpos, []⟩, by simp [outputPolicy, hpos], by simp⟩
    · rw [outputPolicy_published hkernel hfits (by omega)]
      cases read.copyFails with
      | true => exact ⟨_, rfl, by simp [efault]⟩
      | false => exact ⟨_, rfl, by simp; omega⟩

end Published

theorem outputPolicy_inputPolicy_multiNodePolicy :
    keptRegions multiNodePolicy = multiNodePolicy.map PolicyNode.toRegion ∧
    readPolicyText (outputText 0 (keptRegions multiNodePolicy)) =
      some (keptRegions multiNodePolicy) := by
  have hreturns : inputPolicy bottomUpRbtree 5 (writeOf multiNodePolicy) 0 initialPolicy =
      .returns ⟨1, 1, publishedPolicy bottomUpRbtree multiNodePolicy⟩ := by
    decide
  refine ⟨by decide, ?_⟩
  exact (outputPolicy_inputPolicy bottomUpRbtree_keepsOrder hreturns (by decide)
    (writeOf_delivers (by decide)).parsed (by decide)).2.2.2.1

theorem outputPolicy_staysInside_multiNodePolicy :
    ∃ output, outputPolicy (publishedPolicy bottomUpRbtree multiNodePolicy) ⟨1000, false⟩ 0 =
      .returns output ∧ output.ret ≤ 1000 := by
  have hreturns : inputPolicy bottomUpRbtree 5 (writeOf multiNodePolicy) 0 initialPolicy =
      .returns ⟨1, 1, publishedPolicy bottomUpRbtree multiNodePolicy⟩ := by
    decide
  exact (outputPolicy_staysInside_iff bottomUpRbtree_keepsOrder hreturns (by decide)
    (writeOf_delivers (by decide)).parsed).mpr (by decide) ⟨1000, false⟩ 0 (by decide)

/-- Thirteen regions of `2 ^ 60` bytes each, side by side. -/
def thirteenNodes : List PolicyNode :=
  (List.range 13).map fun i => ⟨BitVec.ofNat 64 (2 ^ 60 * (i + 1)), BitVec.ofNat 64 (2 ^ 60), 7⟩

theorem thirteen_regions_overrun :
    bottomUpRbtree.KeepsOrder ∧ ∃ regionMap,
      inputPolicy bottomUpRbtree 13 (writeOf thirteenNodes) 0 initialPolicy =
        .returns ⟨1, 1, ⟨1, some regionMap⟩⟩ ∧
      outputPolicy ⟨1, some regionMap⟩ ⟨1000, false⟩ 0 = .faults .bufferOverrun := by
  refine ⟨bottomUpRbtree_keepsOrder, listToTree bottomUpRbtree .nil thirteenNodes, ?_, ?_⟩
  · decide +kernel
  · decide +kernel

end Carat

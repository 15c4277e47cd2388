import Mathlib.Data.Nat.Log
import Mathlib.Tactic

/-!
# Numerals in text

Reading back what `Nat.toDigits` writes, in any base up to sixteen, the length of
what it writes, and the lines of a text.
-/

namespace NumeralText

/-- The value of a digit, lower case letters after the figures. -/
def digitValue (c : Char) : Option ℕ :=
  if 48 ≤ c.toNat ∧ c.toNat ≤ 57 then some (c.toNat - 48)
  else if 97 ≤ c.toNat ∧ c.toNat ≤ 102 then some (c.toNat - 87)
  else none

def readDigit (base value : ℕ) (c : Char) : Option ℕ :=
  (digitValue c).bind fun digit =>
    if digit < base then some (base * value + digit) else none

def readNumeral (base : ℕ) (text : List Char) : Option ℕ :=
  if text.isEmpty then none else text.foldlM (readDigit base) 0

theorem digitValue_digitChar {n : ℕ} (hn : n < 16) : digitValue n.digitChar = some n := by
  revert n
  decide

section Base

variable {base : ℕ} (hbase : 1 < base)

include hbase

theorem length_toDigits (n : ℕ) : (Nat.toDigits base n).length = Nat.log base n + 1 := by
  refine eq_of_forall_ge_iff fun bound => ?_
  cases bound with
  | zero => simp
  | succ bound =>
      rw [Nat.length_toDigits_le_iff hbase bound.succ_pos, Nat.succ_le_succ_iff]
      constructor
      · intro hlt
        exact Nat.lt_succ_iff.mp (Nat.log_lt_of_lt_pow' bound.succ_ne_zero hlt)
      · intro hle
        exact Nat.lt_pow_of_log_lt hbase (Nat.lt_succ_iff.mpr hle)

variable (hsixteen : base ≤ 16)

include hsixteen

theorem foldlM_readDigit_toDigits (n : ℕ) :
    (Nat.toDigits base n).foldlM (readDigit base) 0 = some n := by
  induction n using Nat.base_induction base hbase with
  | single digit hdigit =>
      rw [Nat.toDigits_of_lt_base hdigit]
      simp [readDigit, digitValue_digitChar (hdigit.trans_le hsixteen), hdigit]
  | digit n digit hdigit hn ih =>
      rw [← Nat.toDigits_append_toDigits hbase hn hdigit, List.foldlM_append, ih,
        Nat.toDigits_of_lt_base hdigit]
      simp [readDigit, digitValue_digitChar (hdigit.trans_le hsixteen), hdigit]

theorem readNumeral_toDigits (n : ℕ) : readNumeral base (Nat.toDigits base n) = some n := by
  rw [readNumeral, List.isEmpty_eq_false_iff.mpr Nat.toDigits_ne_nil]
  exact foldlM_readDigit_toDigits hbase hsixteen n

theorem not_mem_toDigits {c : Char} (hc : digitValue c = none) (n : ℕ) :
    c ∉ Nat.toDigits base n := by
  induction n using Nat.base_induction base hbase with
  | single digit hdigit =>
      rw [Nat.toDigits_of_lt_base hdigit, List.mem_singleton]
      rintro rfl
      simp [digitValue_digitChar (hdigit.trans_le hsixteen)] at hc
  | digit n digit hdigit hn ih =>
      rw [← Nat.toDigits_append_toDigits hbase hn hdigit, List.mem_append,
        Nat.toDigits_of_lt_base hdigit, List.mem_singleton]
      rintro (hmem | rfl)
      · exact ih hmem
      · simp [digitValue_digitChar (hdigit.trans_le hsixteen)] at hc

end Base

/-- Lines that each end in a newline split back into these lines. -/
theorem splitOn_flatMap_newline {lines : List (List Char)}
    (hlines : ∀ line ∈ lines, '\n' ∉ line) :
    (lines.flatMap fun line => line ++ ['\n']).splitOn '\n' = lines ++ [[]] := by
  induction lines with
  | nil => rfl
  | cons line rest ih =>
      obtain ⟨hline, hrest⟩ := List.forall_mem_cons.mp hlines
      rw [List.flatMap_cons, List.append_assoc, List.singleton_append,
        List.splitOn_append_cons_self_of_not_mem hline, ih hrest, List.cons_append]

end NumeralText

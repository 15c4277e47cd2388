import Carat.PolicyModule
import Mathlib.Data.List.TakeWhile

/-!
# Bytes that were not written

`buf` lies uninitialised on the stack, `copy_from_user` fills the first `count`
bytes of it, and `sscanf` and `strlen` then treat it as a string.  How far they
look is part of the model here.

The outcome is decided by the written bytes exactly when they contain a NUL or
already suffice for `sscanf` to give up.
-/

namespace Carat

open SteeredTree

/-- How many bytes the conversion of a number looks at: a sign and the byte after
it, the digits, and the byte that ends them. -/
def numberReads : List UInt8 → ℕ
  | [] => 1
  | c :: str =>
      if c = 45 then 2 + (str.takeWhile isDigit).length
      else 1 + ((c :: str).takeWhile isDigit).length

/-- How many bytes `sscanf(buf, "%ld", ..)` looks at. -/
def sscanfLdReads (buf : List UInt8) : ℕ :=
  (buf.takeWhile isSpace).length + numberReads (buf.dropWhile isSpace)

/-- How many bytes `strlen(buf)` looks at. -/
def strlenReads (buf : List UInt8) : ℕ := strlen buf + 1

/-- How many bytes from `buf` on a call looks at; `strlen` comes last. -/
def inputPolicyReads (kernel : KernelRbtree) (fuel : ℕ) (call : WriteCall) (ppos : ℤ)
    (testPolicy : Policy) : ℕ :=
  if ppos > 0 ∨ call.count > bufSize then 0
  else if call.copyFails then 0
  else
    match sscanfLd call.buf, inputPolicy kernel fuel call ppos testPolicy with
    | some _, .returns _ => max (sscanfLdReads call.buf) (strlenReads call.buf)
    | _, _ => sscanfLdReads call.buf

/-- The bytes alone make `sscanf` give up: after the white space comes a byte
that starts no number, or a sign and a byte that is not a digit. -/
def RejectedWithin (buf : List UInt8) : Prop :=
  ∃ c str, buf.dropWhile isSpace = c :: str ∧
    if c = 45 then ∃ d rest, str = d :: rest ∧ isDigit d = false else isDigit c = false

/-- Whatever lay in `buf` and behind it before the call: the parse and the outcome
are the same, a positive return value is at most `count`, and no byte behind `buf`
is looked at. -/
structure IgnoresStale (kernel : KernelRbtree) (ubuf : List UInt8) : Prop where
  parse : ∀ memory kmalloc stack stack', bufSize ≤ stack.length → bufSize ≤ stack'.length →
    sscanfLd (WriteCall.buf ⟨ubuf, false, stack, memory, kmalloc⟩) =
      sscanfLd (WriteCall.buf ⟨ubuf, false, stack', memory, kmalloc⟩)
  outcome : ∀ memory kmalloc fuel testPolicy stack stack', bufSize ≤ stack.length →
    bufSize ≤ stack'.length →
      inputPolicy kernel fuel ⟨ubuf, false, stack, memory, kmalloc⟩ 0 testPolicy =
        inputPolicy kernel fuel ⟨ubuf, false, stack', memory, kmalloc⟩ 0 testPolicy
  bounded : ∀ memory kmalloc fuel testPolicy stack result, bufSize ≤ stack.length →
    inputPolicy kernel fuel ⟨ubuf, false, stack, memory, kmalloc⟩ 0 testPolicy =
      .returns result → 0 < result.ret → result.ret ≤ ubuf.length
  inside : ∀ memory kmalloc fuel testPolicy stack, bufSize ≤ stack.length →
    inputPolicyReads kernel fuel ⟨ubuf, false, stack, memory, kmalloc⟩ 0 testPolicy ≤ bufSize

/-! ## Where a scan stops -/

theorem takeWhile_append_stop {p : UInt8 → Bool} {stop : UInt8} (hstop : p stop = false)
    (text tail : List UInt8) :
    (text ++ stop :: tail).takeWhile p = text.takeWhile p := by
  induction text with
  | nil => simp [hstop]
  | cons c rest ih => cases hc : p c <;> simp [hc, ih]

theorem dropWhile_append_stop {p : UInt8 → Bool} {stop : UInt8} (hstop : p stop = false)
    (text tail : List UInt8) :
    (text ++ stop :: tail).dropWhile p = text.dropWhile p ++ stop :: tail := by
  induction text with
  | nil => simp [hstop]
  | cons c rest ih => cases hc : p c <;> simp [hc, ih]

theorem length_takeWhile_add_dropWhile (p : UInt8 → Bool) (text : List UInt8) :
    (text.takeWhile p).length + (text.dropWhile p).length = text.length := by
  rw [← List.length_append, List.takeWhile_append_dropWhile]

theorem sscanfLd_of_dropWhile {buf str : List UInt8} {c : UInt8}
    (hdrop : buf.dropWhile isSpace = c :: str) :
    sscanfLd buf =
      if c == 45 then
        if (str.head?.map isDigit).getD false then
          some (-parseDigits (str.takeWhile isDigit))
        else none
      else if isDigit c then some (parseDigits ((c :: str).takeWhile isDigit))
      else none := by
  unfold sscanfLd
  rw [hdrop]

section Terminated

variable (text tail : List UInt8)

theorem strlen_terminated : strlen (text ++ 0 :: tail) = strlen text := by
  rw [strlen, takeWhile_append_stop (by decide), strlen]

/-- `sscanf` sees the string and nothing behind its NUL. -/
theorem sscanfLd_terminated : sscanfLd (text ++ 0 :: tail) = sscanfLd text := by
  have hzero : isDigit 0 = false := by decide
  have hspace : isSpace 0 = false := by decide
  cases hdrop : text.dropWhile isSpace with
  | nil =>
      have hdrop' := dropWhile_append_stop hspace text tail
      rw [hdrop, List.nil_append] at hdrop'
      simp [sscanfLd, hdrop, hdrop', hzero]
  | cons c str =>
      have hdrop' := dropWhile_append_stop hspace text tail
      rw [hdrop, List.cons_append] at hdrop'
      have hsign : ((str ++ 0 :: tail).head?.map isDigit).getD false =
          (str.head?.map isDigit).getD false := by
        cases str <;> simp [hzero]
      have hnumber := takeWhile_append_stop hzero (c :: str) tail
      rw [List.cons_append] at hnumber
      rw [sscanfLd_of_dropWhile hdrop, sscanfLd_of_dropWhile hdrop', hsign, hnumber,
        takeWhile_append_stop hzero]

theorem numberReads_terminated (number : List UInt8) :
    numberReads (number ++ 0 :: tail) ≤ number.length + 1 := by
  have hzero : isDigit 0 = false := by decide
  cases number with
  | nil => simp [numberReads, hzero]
  | cons c str =>
      have hstr := (List.takeWhile_sublist isDigit (l := str)).length_le
      have hcstr := (List.takeWhile_sublist isDigit (l := c :: str)).length_le
      have hnumber := takeWhile_append_stop hzero (c :: str) tail
      rw [List.cons_append] at hnumber
      rw [List.cons_append, numberReads, hnumber, takeWhile_append_stop hzero]
      rw [List.length_cons] at hcstr ⊢
      split <;> omega

theorem sscanfLdReads_terminated : sscanfLdReads (text ++ 0 :: tail) ≤ text.length + 1 := by
  have hsplit := length_takeWhile_add_dropWhile isSpace text
  have hnumber := numberReads_terminated tail (text.dropWhile isSpace)
  rw [sscanfLdReads, dropWhile_append_stop (by decide), takeWhile_append_stop (by decide)]
  omega

end Terminated

/-! ## Bytes that are rejected -/

section Rejected

variable {text : List UInt8} (hrejected : RejectedWithin text)

include hrejected

theorem RejectedWithin.append (tail : List UInt8) : RejectedWithin (text ++ tail) := by
  obtain ⟨c, str, hdrop, hstop⟩ := hrejected
  refine ⟨c, str ++ tail, ?_, ?_⟩
  · rw [List.dropWhile_append, hdrop]
    rfl
  · split at hstop
    next hsign =>
      obtain ⟨d, rest, rfl, hd⟩ := hstop
      exact if_pos hsign ▸ ⟨d, rest ++ tail, rfl, hd⟩
    next hsign => exact if_neg hsign ▸ hstop

theorem RejectedWithin.sscanfLd_eq_none : sscanfLd text = none := by
  obtain ⟨c, str, hdrop, hstop⟩ := hrejected
  rw [sscanfLd_of_dropWhile hdrop]
  split at hstop
  next hsign =>
    obtain ⟨d, rest, rfl, hd⟩ := hstop
    simp [hsign, hd]
  next hsign => simp [hsign, hstop]

theorem RejectedWithin.reads_append (tail : List UInt8) :
    sscanfLdReads (text ++ tail) ≤ text.length := by
  obtain ⟨c, str, hdrop, hstop⟩ := hrejected
  have hsplit := length_takeWhile_add_dropWhile isSpace text
  have hdropTail : (text ++ tail).dropWhile isSpace = c :: (str ++ tail) := by
    rw [List.dropWhile_append, hdrop]
    rfl
  have htotal := length_takeWhile_add_dropWhile isSpace (text ++ tail)
  rw [hdrop, List.length_cons] at hsplit
  rw [hdropTail, List.length_cons, List.length_append, List.length_append] at htotal
  rw [sscanfLdReads, hdropTail, numberReads]
  split at hstop
  next hsign =>
    obtain ⟨d, rest, rfl, hd⟩ := hstop
    rw [List.length_cons] at hsplit htotal
    simp only [hsign, if_true, List.cons_append, List.takeWhile_cons, hd, Bool.false_eq_true,
      if_false, List.length_nil]
    omega
  next hsign =>
    simp only [hsign, if_false, List.takeWhile_cons, hstop, Bool.false_eq_true, List.length_nil]
    omega

end Rejected

/-- When `sscanf` fails and no byte made it, it has looked behind the last byte. -/
theorem length_lt_sscanfLdReads {buf : List UInt8} (hfails : sscanfLd buf = none)
    (hopen : ¬RejectedWithin buf) : buf.length < sscanfLdReads buf := by
  have hsplit := length_takeWhile_add_dropWhile isSpace buf
  rw [sscanfLdReads]
  cases hdrop : buf.dropWhile isSpace with
  | nil =>
      rw [hdrop, List.length_nil] at hsplit
      rw [numberReads]
      omega
  | cons c str =>
      rw [hdrop, List.length_cons] at hsplit
      rw [sscanfLd_of_dropWhile hdrop] at hfails
      by_cases hsign : c = 45
      · cases str with
        | nil =>
            rw [List.length_nil] at hsplit
            rw [numberReads, if_pos hsign]
            omega
        | cons d rest =>
            cases hd : isDigit d with
            | true => simp [hsign, hd] at hfails
            | false =>
                exact absurd ⟨c, _, hdrop, if_pos hsign ▸ ⟨d, rest, rfl, hd⟩⟩ hopen
      · cases hc : isDigit c with
        | true => simp [hsign, hc] at hfails
        | false => exact absurd ⟨c, str, hdrop, if_neg hsign ▸ hc⟩ hopen

/-- A digit behind the bytes rejects nothing that they do not reject. -/
theorem rejectedWithin_of_append_digit {text tail : List UInt8} {digit : UInt8}
    (hspace : isSpace digit = false) (hdigit : isDigit digit = true)
    (hrejected : RejectedWithin (text ++ digit :: tail)) : RejectedWithin text := by
  obtain ⟨c, str, hdrop, hstop⟩ := hrejected
  rw [dropWhile_append_stop hspace] at hdrop
  cases hrest : text.dropWhile isSpace with
  | nil =>
      obtain ⟨rfl, rfl⟩ : digit = c ∧ tail = str := by simpa [hrest] using hdrop
      have hsign : digit ≠ 45 := by
        rintro rfl
        exact absurd hdigit (by decide)
      rw [if_neg hsign, hdigit] at hstop
      exact absurd hstop (by decide)
  | cons c' str' =>
      obtain ⟨rfl, rfl⟩ : c' = c ∧ str' ++ digit :: tail = str := by simpa [hrest] using hdrop
      refine ⟨c', str', hrest, ?_⟩
      split at hstop
      next hsign =>
        rw [if_pos hsign]
        obtain ⟨d, rest, hstr, hd⟩ := hstop
        cases str' with
        | nil =>
            obtain ⟨rfl, rfl⟩ : digit = d ∧ tail = rest := by simpa using hstr
            exact absurd hdigit (by simp [hd])
        | cons d' rest' =>
            obtain ⟨rfl, _⟩ : d' = d ∧ rest' ++ digit :: tail = rest := by simpa using hstr
            exact ⟨d', rest', rfl, hd⟩
      next hsign => exact if_neg hsign ▸ hstop

/-! ## The written bytes alone -/

section Outcome

variable {kernel : KernelRbtree} {fuel : ℕ} {call : WriteCall} {testPolicy : Policy}

theorem inputPolicyReads_le (kernel : KernelRbtree) (fuel : ℕ) (call : WriteCall) (ppos : ℤ)
    (testPolicy : Policy) :
    inputPolicyReads kernel fuel call ppos testPolicy ≤
      max (sscanfLdReads call.buf) (strlenReads call.buf) := by
  unfold inputPolicyReads
  split
  · exact Nat.zero_le _
  · split
    · exact Nat.zero_le _
    · split
      · exact le_rfl
      · exact le_max_left _ _

theorem inputPolicyReads_of_rejected {ppos : ℤ} (hparse : sscanfLd call.buf = none) :
    inputPolicyReads kernel fuel call ppos testPolicy ≤ sscanfLdReads call.buf := by
  unfold inputPolicyReads
  split
  · exact Nat.zero_le _
  · split
    · exact Nat.zero_le _
    · simp [hparse]

theorem ret_eq_strlen {ppos : ℤ} {result : WriteResult}
    (hreturns : inputPolicy kernel fuel call ppos testPolicy = .returns result)
    (hsuccess : 0 < result.ret) : result.ret = strlen call.buf := by
  rcases inputPolicy_cases hreturns with ⟨_, rfl⟩ | ⟨_, _, _, rfl⟩
  · simp [efault] at hsuccess
  · rfl

end Outcome

/-- A write after which ones fill the array, every address holding a last node. -/
def onesBehind (ubuf : List UInt8) : WriteCall where
  ubuf := ubuf
  copyFails := false
  stack := List.replicate bufSize 49
  memory := fun _ => some ⟨⟨0, 0, 0⟩, 0⟩
  kmalloc := fun _ => true

theorem buf_onesBehind (ubuf : List UInt8) :
    (onesBehind ubuf).buf = ubuf ++ List.replicate (bufSize - ubuf.length) 49 := by
  simp [onesBehind, WriteCall.buf, WriteCall.count]

theorem length_buf_onesBehind {ubuf : List UInt8} (hcount : ubuf.length ≤ bufSize) :
    (onesBehind ubuf).buf.length = bufSize := by
  rw [buf_onesBehind, List.length_append, List.length_replicate]
  omega

section Written

variable (kernel : KernelRbtree) {ubuf : List UInt8} (hcount : ubuf.length ≤ bufSize)

include hcount

theorem ignoresStale_of_terminated (hnul : 0 ∈ ubuf) : IgnoresStale kernel ubuf := by
  obtain ⟨text, rest, rfl⟩ := List.append_of_mem hnul
  rw [List.length_append, List.length_cons] at hcount
  have hbuf : ∀ memory kmalloc stack, ∃ tail,
      WriteCall.buf ⟨text ++ 0 :: rest, false, stack, memory, kmalloc⟩ = text ++ 0 :: tail := by
    intro memory kmalloc stack
    exact ⟨rest ++ stack.drop (text ++ 0 :: rest).length, by simp [WriteCall.buf, WriteCall.count]⟩
  have hstrlen : strlen text ≤ text.length := (List.takeWhile_sublist _).length_le
  constructor
  · intro memory kmalloc stack stack' _ _
    obtain ⟨tail, htail⟩ := hbuf memory kmalloc stack
    obtain ⟨tail', htail'⟩ := hbuf memory kmalloc stack'
    rw [htail, htail', sscanfLd_terminated, sscanfLd_terminated]
  · intro memory kmalloc fuel testPolicy stack stack' _ _
    obtain ⟨tail, htail⟩ := hbuf memory kmalloc stack
    obtain ⟨tail', htail'⟩ := hbuf memory kmalloc stack'
    simp only [inputPolicy, htail, htail', sscanfLd_terminated, strlen_terminated]
    rfl
  · intro memory kmalloc fuel testPolicy stack result _ hreturns hsuccess
    obtain ⟨tail, htail⟩ := hbuf memory kmalloc stack
    have hret := ret_eq_strlen hreturns hsuccess
    rw [htail, strlen_terminated] at hret
    rw [hret, List.length_append, List.length_cons]
    omega
  · intro memory kmalloc fuel testPolicy stack _
    obtain ⟨tail, htail⟩ := hbuf memory kmalloc stack
    have hreads := inputPolicyReads_le kernel fuel
      ⟨text ++ 0 :: rest, false, stack, memory, kmalloc⟩ 0 testPolicy
    have hscan := sscanfLdReads_terminated text tail
    rw [htail, strlenReads, strlen_terminated] at hreads
    omega

theorem ignoresStale_of_rejected (hrejected : RejectedWithin ubuf) :
    IgnoresStale kernel ubuf := by
  have hparse : ∀ memory kmalloc stack,
      sscanfLd (WriteCall.buf ⟨ubuf, false, stack, memory, kmalloc⟩) = none := fun _ _ stack =>
    (hrejected.append (stack.drop ubuf.length)).sscanfLd_eq_none
  have haway : ∀ memory kmalloc stack,
      WriteCall.TurnedAway ⟨ubuf, false, stack, memory, kmalloc⟩ 0 := fun memory kmalloc stack =>
    Or.inr (Or.inr (Or.inr (hparse memory kmalloc stack)))
  constructor
  · intro memory kmalloc stack stack' _ _
    rw [hparse, hparse]
  · intro memory kmalloc fuel testPolicy stack stack' _ _
    rw [inputPolicy_turnedAway kernel (haway memory kmalloc stack),
      inputPolicy_turnedAway kernel (haway memory kmalloc stack')]
  · intro memory kmalloc fuel testPolicy stack result _ hreturns hsuccess
    rw [inputPolicy_turnedAway kernel (haway memory kmalloc stack),
      Outcome.returns.injEq] at hreturns
    rw [← hreturns] at hsuccess
    simp [efault] at hsuccess
  · intro memory kmalloc fuel testPolicy stack _
    calc
      inputPolicyReads kernel fuel ⟨ubuf, false, stack, memory, kmalloc⟩ 0 testPolicy ≤
          sscanfLdReads (ubuf ++ stack.drop ubuf.length) :=
        inputPolicyReads_of_rejected (hparse memory kmalloc stack)
      _ ≤ ubuf.length := hrejected.reads_append _
      _ ≤ bufSize := hcount

theorem strlen_onesBehind (hnul : 0 ∉ ubuf) : strlen (onesBehind ubuf).buf = bufSize := by
  have hwhole : ∀ c ∈ (onesBehind ubuf).buf, (c != 0) = true := by
    intro c hc
    rw [buf_onesBehind, List.mem_append] at hc
    rcases hc with hc | hc
    · exact bne_iff_ne.mpr fun hzero => hnul (hzero ▸ hc)
    · rw [List.eq_of_mem_replicate hc]
      decide
  rw [strlen, List.takeWhile_eq_self_iff.mpr hwhole, length_buf_onesBehind hcount]

omit hcount in
theorem not_rejectedWithin_onesBehind (hopen : ¬RejectedWithin ubuf) :
    ¬RejectedWithin (onesBehind ubuf).buf := by
  intro hrejected
  rw [buf_onesBehind] at hrejected
  cases hrest : bufSize - ubuf.length with
  | zero =>
      rw [hrest, List.replicate_zero, List.append_nil] at hrejected
      exact hopen hrejected
  | succ rest =>
      rw [hrest, List.replicate_succ] at hrejected
      exact hopen (rejectedWithin_of_append_digit (by decide) (by decide) hrejected)

/-- Unless the bytes end the string or the parse themselves, a call looks behind
the array. -/
theorem looks_behind_of_ones (hnul : 0 ∉ ubuf) (hopen : ¬RejectedWithin ubuf) :
    bufSize < inputPolicyReads kernel 1 (onesBehind ubuf) 0 initialPolicy := by
  have haccepted : ¬((0 : ℤ) > 0 ∨ (onesBehind ubuf).count > bufSize) := by
    simpa [onesBehind, WriteCall.count] using hcount
  have hcopies : (onesBehind ubuf).copyFails = false := rfl
  simp only [inputPolicyReads, haccepted, if_false, hcopies, Bool.false_eq_true]
  cases hparse : sscanfLd (onesBehind ubuf).buf with
  | none =>
      have hreads := length_lt_sscanfLdReads hparse (not_rejectedWithin_onesBehind hopen)
      rwa [length_buf_onesBehind hcount] at hreads
  | some list =>
      have hlist : ∃ nodes, ListAt (onesBehind ubuf).memory list nodes ∧ nodes.length ≤ 1 := by
        by_cases hnull : list = 0
        · exact ⟨[], hnull ▸ .nil, Nat.zero_le _⟩
        · exact ⟨_, .cons hnull rfl .nil, le_rfl⟩
      obtain ⟨nodes, hlist, hfuel⟩ := hlist
      have hdelivers : (onesBehind ubuf).Delivers 0 nodes :=
        ⟨le_rfl, hcount, rfl, ⟨list, hparse, hlist⟩, fun _ _ => rfl⟩
      rw [inputPolicy_publishes kernel hdelivers hfuel]
      simp only [strlenReads, strlen_onesBehind hcount hnul]
      omega

/-- The written bytes decide everything exactly when they contain a NUL or make
`sscanf` give up. -/
theorem ignoresStale_iff :
    IgnoresStale kernel ubuf ↔ 0 ∈ ubuf ∨ RejectedWithin ubuf := by
  constructor
  · intro hignores
    by_contra hneither
    obtain ⟨hnul, hopen⟩ := not_or.mp hneither
    have hinside := hignores.inside (fun _ => some ⟨⟨0, 0, 0⟩, 0⟩) (fun _ => true) 1 initialPolicy
      (List.replicate bufSize 49) (by rw [List.length_replicate])
    exact absurd (looks_behind_of_ones kernel hcount hnul hopen) (not_lt.mpr hinside)
  · rintro (hnul | hrejected)
    · exact ignoresStale_of_terminated kernel hcount hnul
    · exact ignoresStale_of_rejected kernel hcount hrejected

end Written

/-- The text "5" with the NUL that the application leaves out. -/
theorem ignoresStale_with_nul : IgnoresStale bottomUpRbtree [53, 0] :=
  (ignoresStale_iff bottomUpRbtree (by decide)).mpr (Or.inl (by decide))

/-- The text "5", as the application's test 0 writes it, every address holding a
last node. -/
def fiveOver (stack : List UInt8) : WriteCall where
  ubuf := [53]
  copyFails := false
  stack := stack
  memory := fun _ => some ⟨⟨0, 0, 0⟩, 0⟩
  kmalloc := fun _ => true

/-- Over zeros and over a stale "1": two pointers, two return values, one of them
beyond `count`. -/
theorem stale_digit_changes_pointer :
    sscanfLd (fiveOver (List.replicate 1000 0)).buf = some 5 ∧
    sscanfLd (fiveOver (0 :: 49 :: List.replicate 998 0)).buf = some 51 ∧
    (∃ published, inputPolicy bottomUpRbtree 1 (fiveOver (List.replicate 1000 0)) 0
      initialPolicy = .returns ⟨1, 1, published⟩) ∧
    (∃ published, inputPolicy bottomUpRbtree 1 (fiveOver (0 :: 49 :: List.replicate 998 0)) 0
      initialPolicy = .returns ⟨2, 2, published⟩) ∧
    ¬IgnoresStale bottomUpRbtree [53] := by
  have hzeros : sscanfLd (fiveOver (List.replicate 1000 0)).buf = some 5 := by
    decide +kernel
  have hstale : sscanfLd (fiveOver (0 :: 49 :: List.replicate 998 0)).buf = some 51 := by
    decide +kernel
  refine ⟨hzeros, hstale, ⟨publishedPolicy bottomUpRbtree [⟨0, 0, 0⟩], by decide +kernel⟩,
    ⟨publishedPolicy bottomUpRbtree [⟨0, 0, 0⟩], by decide +kernel⟩, ?_⟩
  intro hignores
  have hsame := hignores.parse (fun _ => some ⟨⟨0, 0, 0⟩, 0⟩) (fun _ => true)
    (List.replicate 1000 0) (0 :: 49 :: List.replicate 998 0) (by decide +kernel)
    (by decide +kernel)
  have hpointers : (some 5 : Option (BitVec 64)) = some 51 :=
    hzeros.symm.trans (hsame.trans hstale)
  exact absurd hpointers (by decide)

end Carat

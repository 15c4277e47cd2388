import Mathlib.Data.List.Nodup
import Mathlib.Tactic

/-!
# Weaving new elements into a sequence

`weave before items` puts the list `before a` in front of every element `a`.
Inserting one more element in front of a chosen element of a woven sequence is
weaving again, and filtering the new elements out gives the old sequence back.
Elements move to later positions and keep their order.
-/

namespace Weaving

universe u

variable {α : Type u}

def weave (before : α → List α) (items : List α) : List α :=
  items.flatMap fun a => before a ++ [a]

@[simp] theorem weave_nil (before : α → List α) : weave before [] = [] := rfl

@[simp] theorem weave_cons (before : α → List α) (a : α) (items : List α) :
    weave before (a :: items) = before a ++ a :: weave before items := by
  simp [weave]

theorem weave_append (before : α → List α) (first second : List α) :
    weave before (first ++ second) = weave before first ++ weave before second := by
  simp [weave]

theorem weave_congr {before before' : α → List α} {items : List α}
    (hsame : ∀ a ∈ items, before a = before' a) :
    weave before items = weave before' items := by
  induction items with
  | nil => rfl
  | cons a rest ih =>
      obtain ⟨ha, hrest⟩ := List.forall_mem_cons.mp hsame
      rw [weave_cons, weave_cons, ha, ih hrest]

theorem weave_empty {before : α → List α} {items : List α}
    (hempty : ∀ a ∈ items, before a = []) : weave before items = items := by
  induction items with
  | nil => rfl
  | cons a rest ih =>
      obtain ⟨ha, hrest⟩ := List.forall_mem_cons.mp hempty
      rw [weave_cons, ha, ih hrest, List.nil_append]

theorem mem_weave {before : α → List α} {items : List α} {b : α} :
    b ∈ weave before items ↔ b ∈ items ∨ ∃ a ∈ items, b ∈ before a := by
  induction items with
  | nil => simp
  | cons a rest ih =>
      simp only [weave_cons, List.mem_append, List.mem_cons, ih, exists_eq_or_imp]
      tauto

/-- One of a kind in front of each element that is asked for. -/
theorem countP_weave {before : α → List α} {items : List α} {woven asked : α → Bool}
    (hcount : ∀ a ∈ items, (before a).countP woven = if asked a then 1 else 0) :
    (weave before items).countP woven = items.countP woven + items.countP asked := by
  induction items with
  | nil => rfl
  | cons a rest ih =>
      obtain ⟨ha, hrest⟩ := List.forall_mem_cons.mp hcount
      rw [weave_cons, List.countP_append, ha, List.countP_cons, ih hrest, List.countP_cons,
        List.countP_cons]
      omega

/-- Erasing what was woven in gives the sequence back. -/
theorem filter_weave {before : α → List α} {items : List α} {keep : α → Bool}
    (hkeep : ∀ a ∈ items, keep a = true)
    (hdrop : ∀ a ∈ items, ∀ b ∈ before a, keep b = false) :
    (weave before items).filter keep = items := by
  induction items with
  | nil => rfl
  | cons a rest ih =>
      obtain ⟨ha, hrest⟩ := List.forall_mem_cons.mp hkeep
      obtain ⟨hbefore, hdrop'⟩ := List.forall_mem_cons.mp hdrop
      have hnone : (before a).filter keep = [] := by
        rw [List.filter_eq_nil_iff]
        intro b hb
        simp [hbefore b hb]
      rw [weave_cons, List.filter_append, hnone, List.nil_append,
        List.filter_cons_of_pos ha, ih hrest hdrop']

/-- The leading elements with a property that nothing woven in shares. -/
theorem span_weave {before : α → List α} {lead : α → Bool} {items : List α}
    (hlead : ∀ a ∈ items, lead a = true → before a = [])
    (hwoven : ∀ a ∈ items, ∀ b ∈ before a, lead b = false) :
    (weave before items).takeWhile lead = items.takeWhile lead ∧
      (weave before items).dropWhile lead = weave before (items.dropWhile lead) := by
  induction items with
  | nil => exact ⟨rfl, rfl⟩
  | cons a rest ih =>
      obtain ⟨hfirst, hlead'⟩ := List.forall_mem_cons.mp hlead
      obtain ⟨hbefore, hwoven'⟩ := List.forall_mem_cons.mp hwoven
      obtain ⟨htake, hdrop⟩ := ih hlead' hwoven'
      cases ha : lead a with
      | true => simp [hfirst ha, ha, htake, hdrop]
      | false =>
          cases hwords : before a with
          | nil => simp [hwords, ha]
          | cons b more =>
              have hb : lead b = false := hbefore b (by simp [hwords])
              simp [hwords, ha, hb]

theorem map_weave {before before' : α → List α} {change : α → α} {items : List α}
    (hfixed : ∀ a ∈ items, change a = a) (hfront : ∀ a ∈ items, (before a).map change = before' a) :
    (weave before items).map change = weave before' items := by
  induction items with
  | nil => rfl
  | cons a rest ih =>
      obtain ⟨ha, hrest⟩ := List.forall_mem_cons.mp hfixed
      obtain ⟨hbefore, hfront'⟩ := List.forall_mem_cons.mp hfront
      rw [weave_cons, weave_cons, List.map_append, List.map_cons, ih hrest hfront', ha, hbefore]

/-! ## Positions -/

/-- Where the element at a position has moved to. -/
def moved (before : α → List α) (items : List α) (i : ℕ) : ℕ :=
  (weave before (items.take (i + 1))).length - 1

theorem weave_split {before : α → List α} {items : List α} {i : ℕ} {a : α}
    (ha : items[i]? = some a) :
    weave before items =
      weave before (items.take i) ++ before a ++ a :: weave before (items.drop (i + 1)) := by
  obtain ⟨hi, rfl⟩ := List.getElem?_eq_some_iff.mp ha
  conv_lhs => rw [← List.take_append_drop i items, weave_append, List.drop_eq_getElem_cons hi,
    weave_cons]
  rw [List.append_assoc]

theorem moved_eq {before : α → List α} {items : List α} {i : ℕ} {a : α}
    (ha : items[i]? = some a) :
    moved before items i = (weave before (items.take i)).length + (before a).length := by
  unfold moved
  rw [List.take_add_one, ha, weave_append]
  simp

theorem front_le_moved {before : α → List α} {items : List α} {i : ℕ} {a : α}
    (ha : items[i]? = some a) : (before a).length ≤ moved before items i := by
  rw [moved_eq ha]
  exact Nat.le_add_left _ _

theorem getElem?_weave_moved {before : α → List α} {items : List α} {i : ℕ} {a : α}
    (ha : items[i]? = some a) : (weave before items)[moved before items i]? = some a := by
  rw [weave_split ha, moved_eq ha, ← List.length_append, List.getElem?_append_right le_rfl,
    Nat.sub_self]
  rfl

theorem moved_lt {before : α → List α} {items : List α} {i j : ℕ} {a : α} (hij : j < i)
    (ha : items[i]? = some a) :
    moved before items j + (before a).length < moved before items i := by
  obtain ⟨hi, -⟩ := List.getElem?_eq_some_iff.mp ha
  have hj : items[j]? = some items[j] := List.getElem?_eq_getElem (hij.trans hi)
  have htake : items.take i = items.take (j + 1) ++ (items.drop (j + 1)).take (i - (j + 1)) := by
    rw [← List.take_add, Nat.add_sub_cancel' hij]
  have hpos : 0 < (weave before (items.take (j + 1))).length := by
    rw [List.take_add_one, hj, weave_append]
    simp
  rw [moved_eq ha, htake, weave_append, List.length_append]
  unfold moved
  omega

/-- What stands at a position of a woven sequence: an element that has moved there,
or one of those in front of it. -/
theorem getElem?_weave_cases {before : α → List α} {items : List α} {k : ℕ} {b : α}
    (hb : (weave before items)[k]? = some b) :
    ∃ i a, items[i]? = some a ∧
      (b = a ∧ k = moved before items i ∨
        ∃ m, (before a)[m]? = some b ∧ k + (before a).length = moved before items i + m) := by
  induction items generalizing k with
  | nil => simp at hb
  | cons a rest ih =>
      rw [weave_cons] at hb
      have hfirst : moved before (a :: rest) 0 = (before a).length := by
        simp [moved_eq (List.getElem?_cons_zero ..)]
      rcases lt_trichotomy k (before a).length with hk | hk | hk
      · rw [List.getElem?_append_left hk] at hb
        exact ⟨0, a, rfl, Or.inr ⟨k, hb, by omega⟩⟩
      · rw [List.getElem?_append_right hk.ge, hk, Nat.sub_self, List.getElem?_cons_zero,
          Option.some.injEq] at hb
        exact ⟨0, a, rfl, Or.inl ⟨hb.symm, by omega⟩⟩
      · rw [List.getElem?_append_right hk.le] at hb
        obtain ⟨k', hk'⟩ : ∃ k', k = (before a).length + k' + 1 :=
          ⟨k - (before a).length - 1, by omega⟩
        rw [hk', Nat.add_assoc, Nat.add_sub_cancel_left, List.getElem?_cons_succ] at hb
        obtain ⟨i, c, hc, hcases⟩ := ih hb
        have hmoved : moved before (a :: rest) (i + 1) =
            (before a).length + 1 + moved before rest i := by
          have hc' : (a :: rest)[i + 1]? = some c := by simpa using hc
          rw [moved_eq hc, moved_eq hc', List.take_succ_cons, weave_cons]
          simp
          omega
        refine ⟨i + 1, c, by simpa using hc, ?_⟩
        rcases hcases with ⟨rfl, hk⟩ | ⟨m, hm, hk⟩
        · exact Or.inl ⟨rfl, by omega⟩
        · exact Or.inr ⟨m, hm, by omega⟩

/-- Where the elements in front of another one stand. -/
theorem getElem?_weave_front {before : α → List α} {items : List α} {i k m : ℕ} {a b : α}
    (ha : items[i]? = some a) (hb : (before a)[m]? = some b)
    (hk : k + (before a).length = moved before items i + m) :
    (weave before items)[k]? = some b := by
  obtain ⟨hm, -⟩ := List.getElem?_eq_some_iff.mp hb
  rw [moved_eq ha] at hk
  obtain rfl : k = (weave before (items.take i)).length + m := by omega
  rw [weave_split ha, List.append_assoc, List.getElem?_append_right (by omega),
    Nat.add_sub_cancel_left, List.getElem?_append_left hm, hb]

theorem getLast?_weave (before : α → List α) (items : List α) :
    (weave before items).getLast? = items.getLast? := by
  rcases List.eq_nil_or_concat items with rfl | ⟨init, last, rfl⟩
  · rfl
  · simp [weave_append]

/-! ## One element more -/

def insertBefore (target : α → Bool) (new : α) (items : List α) : List α :=
  items.flatMap fun a => if target a then [new, a] else [a]

@[simp] theorem insertBefore_nil (target : α → Bool) (new : α) :
    insertBefore target new [] = [] := rfl

@[simp] theorem insertBefore_cons (target : α → Bool) (new a : α) (items : List α) :
    insertBefore target new (a :: items) =
      (if target a then [new, a] else [a]) ++ insertBefore target new items := by
  simp [insertBefore]

theorem insertBefore_append (target : α → Bool) (new : α) (first second : List α) :
    insertBefore target new (first ++ second) =
      insertBefore target new first ++ insertBefore target new second := by
  simp [insertBefore]

theorem insertBefore_of_none {target : α → Bool} {items : List α}
    (hnone : ∀ a ∈ items, target a = false) (new : α) :
    insertBefore target new items = items := by
  induction items with
  | nil => rfl
  | cons a rest ih =>
      obtain ⟨ha, hrest⟩ := List.forall_mem_cons.mp hnone
      simp [ha, ih hrest]

theorem mem_of_mem_insertBefore {target : α → Bool} {new a : α} {items : List α}
    (hmem : a ∈ insertBefore target new items) : a = new ∨ a ∈ items := by
  unfold insertBefore at hmem
  rw [List.mem_flatMap] at hmem
  obtain ⟨b, hb, ha⟩ := hmem
  split at ha
  · simp only [List.mem_cons, List.not_mem_nil, or_false] at ha
    rcases ha with rfl | rfl
    · exact Or.inl rfl
    · exact Or.inr hb
  · obtain rfl : a = b := by simpa using ha
    exact Or.inr hb

/-- Inserting into a woven sequence extends what is woven in. -/
theorem insertBefore_weave {before : α → List α} {target : α → Bool} {items : List α}
    (hwoven : ∀ a ∈ items, ∀ b ∈ before a, target b = false) (new : α) :
    insertBefore target new (weave before items) =
      weave (fun a => if target a then before a ++ [new] else before a) items := by
  induction items with
  | nil => rfl
  | cons a rest ih =>
      obtain ⟨ha, hrest⟩ := List.forall_mem_cons.mp hwoven
      rw [weave_cons, weave_cons, insertBefore_append, insertBefore_of_none ha,
        insertBefore_cons, ih hrest]
      cases target a <;> simp

theorem nodup_insertBefore [DecidableEq α] {items : List α} {target new : α}
    (hnodup : items.Nodup) (hnew : new ∉ items) :
    (insertBefore (fun a => a == target) new items).Nodup := by
  induction items with
  | nil => exact List.nodup_nil
  | cons a rest ih =>
      obtain ⟨ha, hrest⟩ := List.nodup_cons.mp hnodup
      obtain ⟨hne, hnewRest⟩ : new ≠ a ∧ new ∉ rest := by simpa using hnew
      by_cases htarget : a = target
      · subst a
        have hnone : ∀ b ∈ rest, (b == target) = false := by
          intro b hb
          rw [beq_eq_false_iff_ne]
          exact ne_of_mem_of_not_mem hb ha
        simp [insertBefore_of_none hnone, hne, hnewRest, ha, hrest]
      · have hkept : a ∉ insertBefore (fun b => b == target) new rest := fun hmem =>
          (mem_of_mem_insertBefore hmem).elim (fun heq => hne heq.symm) ha
        simp [htarget, hkept, ih hrest hnewRest]

end Weaving

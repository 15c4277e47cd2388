import Mathlib.Data.List.Nodup
import Mathlib.Tactic

/-!
# The first element for each key

Elements arrive one after the other and one is kept unless its key is taken.
What remains, in the order of arrival, is the first element for each key.
-/

namespace FirstByKey

universe u v w

variable {α : Type u} {κ : Type v} [DecidableEq κ]

def firstByKey (key : α → κ) : List α → List α
  | [] => []
  | x :: rest => x :: (firstByKey key rest).filter fun y => key y ≠ key x

variable {key : α → κ}

theorem firstByKey_sublist (elements : List α) :
    (firstByKey key elements).Sublist elements := by
  induction elements with
  | nil => exact List.Sublist.slnil
  | cons x rest ih => exact (List.filter_sublist.trans ih).cons_cons x

theorem pairwise_firstByKey (elements : List α) :
    (firstByKey key elements).Pairwise fun x y => key x ≠ key y := by
  induction elements with
  | nil => exact List.Pairwise.nil
  | cons x rest ih =>
      refine List.pairwise_cons.mpr ⟨?_, ih.sublist List.filter_sublist⟩
      intro y hy
      exact Ne.symm (of_decide_eq_true (List.mem_filter.mp hy).2)

theorem exists_key_firstByKey (key : α → κ) {elements : List α} {x : α} (hx : x ∈ elements) :
    ∃ first ∈ firstByKey key elements, key first = key x := by
  induction elements with
  | nil => simp at hx
  | cons head rest ih =>
      by_cases hkey : key head = key x
      · exact ⟨head, List.mem_cons_self, hkey⟩
      · rcases List.mem_cons.mp hx with rfl | hrest
        · exact absurd rfl hkey
        · obtain ⟨first, hfirst, heq⟩ := ih hrest
          refine ⟨first, List.mem_cons_of_mem _ (List.mem_filter.mpr ⟨hfirst, ?_⟩), heq⟩
          simpa [heq] using Ne.symm hkey

/-- One more element: it is kept when no earlier one has its key. -/
theorem firstByKey_concat (elements : List α) (last : α) :
    firstByKey key (elements ++ [last]) =
      if ∃ x ∈ elements, key x = key last then firstByKey key elements
      else firstByKey key elements ++ [last] := by
  induction elements with
  | nil => simp [firstByKey]
  | cons x rest ih =>
      rw [List.cons_append, firstByKey, ih]
      by_cases hrest : ∃ y ∈ rest, key y = key last
      · have hcons : ∃ y ∈ x :: rest, key y = key last := by
          obtain ⟨y, hy, heq⟩ := hrest
          exact ⟨y, List.mem_cons_of_mem x hy, heq⟩
        rw [if_pos hrest, if_pos hcons, firstByKey]
      · rw [if_neg hrest, List.filter_append]
        by_cases hx : key x = key last
        · rw [if_pos ⟨x, List.mem_cons_self, hx⟩, firstByKey]
          simp [hx]
        · have hcons : ¬∃ y ∈ x :: rest, key y = key last := by
            rintro ⟨y, hy, heq⟩
            rcases List.mem_cons.mp hy with rfl | hy
            · exact hx heq
            · exact hrest ⟨y, hy, heq⟩
          rw [if_neg hcons, firstByKey, List.cons_append]
          simp [Ne.symm hx]

theorem firstByKey_eq_self {elements : List α}
    (hdistinct : elements.Pairwise fun x y => key x ≠ key y) :
    firstByKey key elements = elements := by
  induction elements with
  | nil => rfl
  | cons x rest ih =>
      obtain ⟨hx, hrest⟩ := List.pairwise_cons.mp hdistinct
      rw [firstByKey, ih hrest, List.filter_eq_self.mpr]
      intro y hy
      simpa using (hx y hy).symm

/-- Elements are lost exactly when a key comes twice. -/
theorem length_firstByKey_eq_iff {elements : List α} :
    (firstByKey key elements).length = elements.length ↔
      elements.Pairwise fun x y => key x ≠ key y := by
  constructor
  · intro hlength
    have hsame := (firstByKey_sublist elements).eq_of_length hlength
    have hdistinct : (firstByKey key elements).Pairwise fun x y => key x ≠ key y :=
      pairwise_firstByKey elements
    rwa [hsame] at hdistinct
  · intro hdistinct
    rw [firstByKey_eq_self hdistinct]

theorem firstByKey_congr {κ' : Type w} [DecidableEq κ'] {key' : α → κ'}
    (hkeys : ∀ x y, key x = key y ↔ key' x = key' y) (elements : List α) :
    firstByKey key elements = firstByKey key' elements := by
  induction elements with
  | nil => rfl
  | cons x rest ih =>
      rw [firstByKey, firstByKey, ih]
      congr 2
      funext y
      exact decide_eq_decide.mpr (not_congr (hkeys y x))

theorem firstByKey_map {β : Type w} (f : β → α) (elements : List β) :
    firstByKey key (elements.map f) = (firstByKey (key ∘ f) elements).map f := by
  induction elements with
  | nil => rfl
  | cons x rest ih =>
      rw [List.map_cons, firstByKey, ih, List.filter_map, firstByKey, List.map_cons]
      rfl

/-- What is kept is exactly what comes first for its key. -/
theorem mem_firstByKey_iff {elements : List α} {x : α} :
    x ∈ firstByKey key elements ↔
      ∃ before after, elements = before ++ x :: after ∧ ∀ y ∈ before, key y ≠ key x := by
  induction elements with
  | nil => simp [firstByKey]
  | cons head rest ih =>
      rw [firstByKey, List.mem_cons, List.mem_filter, ih]
      constructor
      · rintro (rfl | ⟨⟨before, after, rfl, hbefore⟩, hne⟩)
        · exact ⟨[], rest, rfl, by simp⟩
        · refine ⟨head :: before, after, rfl, ?_⟩
          rw [List.forall_mem_cons]
          exact ⟨Ne.symm (of_decide_eq_true hne), hbefore⟩
      · rintro ⟨before, after, hsplit, hbefore⟩
        cases before with
        | nil =>
            obtain ⟨rfl, rfl⟩ : head = x ∧ rest = after := by simpa using hsplit
            exact Or.inl rfl
        | cons first before =>
            obtain ⟨rfl, rfl⟩ : head = first ∧ rest = before ++ x :: after := by
              simpa using hsplit
            obtain ⟨hhead, hbefore⟩ := List.forall_mem_cons.mp hbefore
            exact Or.inr ⟨⟨before, after, rfl, hbefore⟩, by simpa using hhead.symm⟩

end FirstByKey

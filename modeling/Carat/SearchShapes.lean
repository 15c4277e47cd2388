import Carat.IntervalSearch
import Carat.KernelRbtree
import Mathlib.Data.Finset.Max

/-!
# Searches that depend on the shape

Intervals that overlap can stand in trees of many shapes, and a search may end
differently in each.  What it can come to: any interval that holds the target, since
it may be the root; and nothing at all, unless the one that starts last holds the
target as well, of those that do not start too late.

Any element can be made the root by a library that keeps the order.
-/

namespace SteeredTree

universe u v w

/-! ## Trees with a given root -/

namespace RbTree

variable {α : Type u}

def chain : List α → RbTree α
  | [] => .nil
  | data :: rest => .node .black .nil data (chain rest)

@[simp] theorem inorder_chain (elements : List α) : (chain elements).inorder = elements := by
  induction elements with
  | nil => rfl
  | cons data rest ih => simp [chain, ih]

/-- The element at `i` is the root, if there is one. -/
def rootedAt (i : ℕ) (elements : List α) : RbTree α :=
  match elements.drop i with
  | [] => chain elements
  | data :: after => .node .black (chain (elements.take i)) data (chain after)

@[simp] theorem inorder_rootedAt (i : ℕ) (elements : List α) :
    (rootedAt i elements).inorder = elements := by
  unfold rootedAt
  split
  next => exact inorder_chain elements
  next data after hdrop =>
    rw [inorder_node, inorder_chain, inorder_chain, ← hdrop, List.take_append_drop]

theorem rootedAt_length (before : List α) (data : α) (after : List α) :
    rootedAt before.length (before ++ data :: after) =
      .node .black (chain before) data (chain after) := by
  simp [rootedAt]

end RbTree

/-- A library that puts the element at `i` at the root whenever there is one. -/
def rootedRbtree (i : ℕ) : KernelRbtree where
  rbInsertColor tree _ := .rootedAt i tree.inorder
  rbErase tree place := tree.eraseAt place

theorem rootedRbtree_keepsOrder (i : ℕ) : (rootedRbtree i).KeepsOrder where
  insertColor fresh hgap := by
    simp only [rootedRbtree, RbTree.inorder_rootedAt]
    exact (RbTree.gapAt_spec hgap fresh).2
  erase hnode := RbTree.inorder_eraseAt hnode

/-! ## What a search can come to -/

section Intervals

variable {α : Type u} {κ : Type v} [LinearOrder κ] {start stop : α → κ} {target : κ}
  {elements : List α}

/-- The last to start, of the elements that start in time. -/
structure Nearest (start : α → κ) (target : κ) (elements : List α) (nearest : α) : Prop where
  mem : nearest ∈ elements
  inTime : start nearest ≤ target
  last : ∀ x ∈ elements, start x ≤ target → start x ≤ start nearest

instance [DecidableEq α] (nearest : α) : Decidable (Nearest start target elements nearest) :=
  decidable_of_iff (nearest ∈ elements ∧ start nearest ≤ target ∧
    ∀ x ∈ elements, start x ≤ target → start x ≤ start nearest)
    ⟨fun h => ⟨h.1, h.2.1, h.2.2⟩, fun h => ⟨h.mem, h.inTime, h.last⟩⟩

theorem exists_nearest {x : α} (hmem : x ∈ elements) (hstart : start x ≤ target) :
    ∃ nearest, Nearest start target elements nearest := by
  have hne : (↑(elements.filter (start · ≤ target)) : Multiset α) ≠ 0 := by
    have hfilter : x ∈ elements.filter (start · ≤ target) := by simp [hmem, hstart]
    exact fun hzero => List.ne_nil_of_mem hfilter (Multiset.coe_eq_zero _ |>.mp hzero)
  obtain ⟨nearest, hnearest, hlast⟩ := Multiset.exists_max_image start hne
  simp only [Multiset.mem_coe, List.mem_filter, decide_eq_true_eq] at hnearest hlast
  exact ⟨nearest, hnearest.1, hnearest.2, fun x hx hxstart => hlast x ⟨hx, hxstart⟩⟩

theorem KeyOrdered.eq_of_key (hordered : KeyOrdered start elements) {x y : α} (hx : x ∈ elements)
    (hy : y ∈ elements) (hkey : start x = start y) : x = y := by
  have hnodup : (elements.map start).Nodup :=
    List.pairwise_map.mpr (hordered.imp fun hlt => hlt.ne)
  exact List.inj_on_of_nodup_map hnodup hx hy hkey

theorem Nearest.unique (hordered : KeyOrdered start elements) {first second : α}
    (hfirst : Nearest start target elements first)
    (hsecond : Nearest start target elements second) : first = second :=
  hordered.eq_of_key hfirst.mem hsecond.mem
    (le_antisymm (hsecond.last first hfirst.mem hfirst.inTime)
      (hfirst.last second hsecond.mem hsecond.inTime))

theorem RbTree.data?_descend_none {steer : α → Ordering} {tree : RbTree α}
    (hnone : ∀ x ∈ tree.inorder, steer x ≠ .eq) : (tree.descend steer).data? = none := by
  cases hdescend : tree.descend steer with
  | vacant place => rfl
  | found place data =>
      obtain ⟨hmem, heq⟩ := RbTree.mem_inorder_of_descend_found hdescend
      exact absurd heq (hnone data hmem)

/-- A search does not miss everything where the nearest element holds the target. -/
theorem Nearest.found {tree : RbTree α} (hordered : KeyOrdered start tree.inorder) {nearest : α}
    (hnearest : Nearest start target tree.inorder nearest) (hholds : target < stop nearest) :
    (tree.descend (intervalSteer start stop target)).data? ≠ none := by
  induction tree with
  | nil => exact absurd hnearest.mem (by simp)
  | node color left data right ihLeft ihRight =>
      obtain ⟨hleft, hcons, hcross⟩ := List.pairwise_append.mp hordered
      obtain ⟨hdata, hright⟩ := List.pairwise_cons.mp hcons
      have hmem := hnearest.mem
      rw [RbTree.inorder_node, List.mem_append, List.mem_cons] at hmem
      cases hturn : intervalSteer start stop target data with
      | eq => simp [RbTree.descend, hturn]
      | lt =>
          have hlate := (intervalSteer_eq_lt target data).mp hturn
          have hbelow : nearest ∈ left.inorder := by
            rcases hmem with hmem | rfl | hmem
            · exact hmem
            · exact absurd hnearest.inTime (not_le.mpr hlate)
            · exact absurd ((hlate.trans (hdata nearest hmem)).trans_le hnearest.inTime)
                (lt_irrefl target)
          have hleftNearest : Nearest start target left.inorder nearest :=
            ⟨hbelow, hnearest.inTime, fun x hx => hnearest.last x (by simp [hx])⟩
          simpa [RbTree.descend, hturn] using ihLeft hleft hleftNearest
      | gt =>
          have hinTime : start data ≤ target := by
            have hnot : intervalSteer start stop target data ≠ .lt := by simp [hturn]
            rwa [Ne, intervalSteer_eq_lt, not_lt] at hnot
          have habove : nearest ∈ right.inorder := by
            rcases hmem with hmem | rfl | hmem
            · exact absurd (hnearest.last data (by simp) hinTime)
                (not_le.mpr (hcross nearest hmem data List.mem_cons_self))
            · have hstopped : intervalSteer start stop target nearest = .eq :=
                (intervalSteer_eq_eq target nearest).mpr ⟨hinTime, hholds⟩
              rw [hturn] at hstopped
              cases hstopped
            · exact hmem
          have hrightNearest : Nearest start target right.inorder nearest :=
            ⟨habove, hnearest.inTime, fun x hx => hnearest.last x (by simp [hx])⟩
          simpa [RbTree.descend, hturn] using ihRight hright hrightNearest

theorem descend_root {before after : List α} {data : α} (hholds : start data ≤ target ∧
    target < stop data) :
    ((RbTree.rootedAt before.length (before ++ data :: after)).descend
      (intervalSteer start stop target)).data? = some data := by
  have hturn := (intervalSteer_eq_eq target data).mpr hholds
  rw [RbTree.rootedAt_length, RbTree.descend, hturn]
  rfl

/-- With the nearest element at the root, the search comes to that or to nothing. -/
theorem Nearest.missed {before after : List α} {nearest : α}
    (hordered : KeyOrdered start (before ++ nearest :: after))
    (hnearest : Nearest start target (before ++ nearest :: after) nearest)
    (hmisses : ¬target < stop nearest) :
    ((RbTree.rootedAt before.length (before ++ nearest :: after)).descend
      (intervalSteer start stop target)).data? = none := by
  have hturn : intervalSteer start stop target nearest = .gt := by
    simp [intervalSteer, hnearest.inTime, not_lt.mp hmisses]
  rw [RbTree.rootedAt_length, RbTree.descend, hturn]
  refine (Descent.data?_under _ _).trans (RbTree.data?_descend_none fun x hx heq => ?_)
  rw [RbTree.inorder_chain] at hx
  have hlater : start nearest < start x :=
    (List.pairwise_cons.mp (List.pairwise_append.mp hordered).2.1).1 x hx
  exact absurd (hnearest.last x (by simp [hx]) ((intervalSteer_eq_eq target x).mp heq).1)
    (not_le.mpr hlater)

/-- Every element that holds the target gives this answer, and the nearest one holds
the target unless a miss gives it too. -/
structure Agreed {γ : Type w} (start stop : α → κ) (target : κ) (elements : List α)
    (answer : Option α → γ) (agreed : γ) : Prop where
  found : ∀ x ∈ elements, start x ≤ target → target < stop x → answer (some x) = agreed
  missed : (∃ nearest, Nearest start target elements nearest ∧ target < stop nearest) ∨
    answer none = agreed

section Answers

variable {γ : Type w} {answer : Option α → γ} {agreed : γ}

theorem Agreed.search {tree : RbTree α} (hordered : KeyOrdered start tree.inorder)
    (hagreed : Agreed start stop target tree.inorder answer agreed) :
    answer (tree.descend (intervalSteer start stop target)).data? = agreed := by
  cases hdescend : tree.descend (intervalSteer start stop target) with
  | found place data =>
      obtain ⟨hmem, heq⟩ := RbTree.mem_inorder_of_descend_found hdescend
      obtain ⟨hstart, hstop⟩ := (intervalSteer_eq_eq target data).mp heq
      exact hagreed.found data hmem hstart hstop
  | vacant place =>
      rcases hagreed.missed with ⟨nearest, hnearest, hholds⟩ | hnone
      · exact absurd (by rw [hdescend]; rfl) (hnearest.found hordered hholds)
      · exact hnone

/-- An answer is the same for every shape only if it is agreed. -/
theorem agreed_of_rooted (hordered : KeyOrdered start elements)
    (hrooted : ∀ i, answer ((RbTree.rootedAt i elements).descend
      (intervalSteer start stop target)).data? = agreed) :
    Agreed start stop target elements answer agreed := by
  refine ⟨fun x hx hstart hstop => ?_, ?_⟩
  · obtain ⟨before, after, rfl⟩ := List.append_of_mem hx
    rw [← hrooted before.length, descend_root ⟨hstart, hstop⟩]
  · by_cases hnone : ∃ x ∈ elements, start x ≤ target
    · obtain ⟨x, hx, hstart⟩ := hnone
      obtain ⟨nearest, hnearest⟩ := exists_nearest hx hstart
      by_cases hholds : target < stop nearest
      · exact .inl ⟨nearest, hnearest, hholds⟩
      · obtain ⟨before, after, rfl⟩ := List.append_of_mem hnearest.mem
        exact .inr (by rw [← hrooted before.length, hnearest.missed hordered hholds])
    · push Not at hnone
      have hmiss : ((RbTree.rootedAt 0 elements).descend
          (intervalSteer start stop target)).data? = none :=
        RbTree.data?_descend_none fun x hx heq => by
          rw [RbTree.inorder_rootedAt] at hx
          exact absurd ((intervalSteer_eq_eq target x).mp heq).1 (not_le.mpr (hnone x hx))
      exact .inr (by rw [← hrooted 0, hmiss])

end Answers

end Intervals

end SteeredTree

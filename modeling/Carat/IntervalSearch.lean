import Carat.SteeredTree
import Mathlib.Data.List.Perm.Basic
import Mathlib.Data.List.Sort

/-!
# Searching by key and by half-open interval

The two steerings used on trees whose payloads carry a start and a stop: by
start alone, and by membership in `[start, stop)`.  The first is sharp on every
strictly ordered sequence.  The second is sharp when, in addition, no payload
reaches past the start of a later one; payloads with `stop ≤ start` hold nothing
and may stand anywhere.

Where the steering is not sharp the shape of the tree matters: a walk arrives at
an element unless something above it stops the walk.
-/

namespace SteeredTree

universe u v

variable {α : Type u} {κ : Type v} [LinearOrder κ]

def keySteer (key : α → κ) (target : κ) (x : α) : Ordering :=
  if target < key x then .lt else if key x < target then .gt else .eq

theorem keySteer_eq_lt (key : α → κ) (target : κ) (x : α) :
    keySteer key target x = .lt ↔ target < key x := by
  unfold keySteer
  split_ifs <;> simp_all

theorem keySteer_eq_gt (key : α → κ) (target : κ) (x : α) :
    keySteer key target x = .gt ↔ key x < target := by
  unfold keySteer
  split_ifs with hlt hgt
  · simp [hlt.le]
  · simp [hgt]
  · simp [hgt]

theorem keySteer_eq_eq (key : α → κ) (target : κ) (x : α) :
    keySteer key target x = .eq ↔ key x = target := by
  unfold keySteer
  split_ifs with hlt hgt
  · simp [hlt.ne']
  · simp [hgt.ne]
  · simpa using le_antisymm (not_lt.mp hlt) (not_lt.mp hgt)

def KeyOrdered (key : α → κ) (elements : List α) : Prop :=
  elements.Pairwise fun x y => key x < key y

theorem KeyOrdered.sharp {key : α → κ} {elements : List α}
    (hordered : KeyOrdered key elements) (target : κ) :
    Sharp (keySteer key target) elements := by
  apply hordered.imp
  intro x y hxy hx
  rw [Ne, keySteer_eq_gt, not_lt] at hx
  exact (keySteer_eq_lt key target y).mpr (hx.trans_lt hxy)

theorem KeyOrdered.eq_of_perm {key : α → κ} {first second : List α}
    (hfirst : KeyOrdered key first) (hsecond : KeyOrdered key second)
    (hperm : first.Perm second) : first = second :=
  hperm.eq_of_pairwise (fun _ _ _ _ hxy hyx => absurd hxy hyx.asymm) hfirst hsecond

theorem keyOrdered_insert {key : α → κ} {before after : List α} {fresh : α}
    (hordered : KeyOrdered key (before ++ after))
    (hbefore : ∀ x ∈ before, key x < key fresh)
    (hafter : ∀ x ∈ after, key fresh < key x) :
    KeyOrdered key (before ++ fresh :: after) := by
  have hparts := List.pairwise_append.mp hordered
  refine List.pairwise_append.mpr
    ⟨hparts.1, List.pairwise_cons.mpr ⟨hafter, hparts.2.1⟩, ?_⟩
  intro x hx y hy
  rcases List.mem_cons.mp hy with rfl | hy
  · exact hbefore x hx
  · exact hparts.2.2 x hx y hy

theorem keyOrdered_erase {key : α → κ} {before after : List α} {gone : α}
    (hordered : KeyOrdered key (before ++ gone :: after)) :
    KeyOrdered key (before ++ after) :=
  hordered.sublist (by simp)

/-- Sorting elements with different keys puts them in strict order. -/
theorem keyOrdered_insertionSort {key : α → κ} {elements : List α}
    (hdistinct : elements.Pairwise fun x y => key x ≠ key y) :
    KeyOrdered key (elements.insertionSort fun x y => key x ≤ key y) := by
  have htotal : Std.Total fun x y : α => key x ≤ key y := ⟨fun x y => le_total (key x) (key y)⟩
  have htrans : IsTrans α fun x y => key x ≤ key y := ⟨fun _ _ _ hxy hyz => hxy.trans hyz⟩
  have hsorted := List.pairwise_insertionSort (fun x y : α => key x ≤ key y) elements
  have hne : (elements.insertionSort fun x y => key x ≤ key y).Pairwise
      fun x y => key x ≠ key y :=
    ((List.perm_insertionSort _ elements).pairwise_iff fun h => h.symm).mpr hdistinct
  exact (hsorted.and hne).imp fun h => lt_of_le_of_ne h.1 h.2

/-! ## The way down to an element -/

namespace RbTree

/-- The elements passed on the way from the root to one of them. -/
def above [DecidableEq α] (target : α) : RbTree α → List α
  | .nil => []
  | .node _ left data right =>
      if target ∈ left.inorder then data :: left.above target
      else if target ∈ right.inorder then data :: right.above target
      else []

/-- A walk which never turns the wrong way arrives at an element exactly when it
stops there and nowhere above. -/
theorem data?_descend_eq_some_iff [DecidableEq α] {key : α → κ} {steer : α → Ordering}
    {target : α} (hlater : ∀ x, key target < key x → steer x = .lt)
    (hearlier : ∀ x, key x < key target → steer x ≠ .lt) {tree : RbTree α}
    (hordered : KeyOrdered key tree.inorder) (hmem : target ∈ tree.inorder) :
    (tree.descend steer).data? = some target ↔
      steer target = .eq ∧ ∀ x ∈ tree.above target, steer x ≠ .eq := by
  induction tree with
  | nil => simp at hmem
  | node color left data right ihLeft ihRight =>
      obtain ⟨hleft, hcons, hcross⟩ := List.pairwise_append.mp hordered
      obtain ⟨hdata, hright⟩ := List.pairwise_cons.mp hcons
      by_cases hinLeft : target ∈ left.inorder
      · have hturn : steer data = .lt :=
          hlater data (hcross target hinLeft data List.mem_cons_self)
        simp [descend, above, hturn, hinLeft, ihLeft hleft hinLeft]
      · by_cases hinRight : target ∈ right.inorder
        · have hbefore : key data < key target := hdata target hinRight
          have hne : data ≠ target := fun heq => hbefore.ne (congrArg key heq)
          cases hturn : steer data with
          | lt => exact absurd hturn (hearlier data hbefore)
          | eq => simp [descend, above, hturn, hinLeft, hinRight, hne]
          | gt => simp [descend, above, hturn, hinLeft, hinRight, ihRight hright hinRight]
        · obtain rfl : target = data := by simpa [hinLeft, hinRight] using hmem
          have hnotFound : ∀ subtree : RbTree α, target ∉ subtree.inorder →
              (subtree.descend steer).data? ≠ some target := by
            intro subtree hnot hfound
            cases hdescend : subtree.descend steer with
            | vacant place => simp [hdescend] at hfound
            | found place data =>
                obtain rfl : data = target := by simpa [hdescend] using hfound
                exact hnot (mem_inorder_of_descend_found hdescend).1
          cases hturn : steer target with
          | lt => simp [descend, hturn, hnotFound left hinLeft]
          | eq => simp [descend, above, hturn, hinLeft, hinRight]
          | gt => simp [descend, hturn, hnotFound right hinRight]

end RbTree

/-! ## Intervals -/

section Intervals

variable (start stop : α → κ)

def intervalSteer (target : κ) (x : α) : Ordering :=
  if target < start x then .lt else if stop x ≤ target then .gt else .eq

/-- The elements climb: each stops no later than the next one starts. -/
def Staircase (elements : List α) : Prop :=
  elements.Pairwise fun x y => start x < start y ∧ stop x ≤ start y

variable {start stop}

theorem intervalSteer_eq_eq (target : κ) (x : α) :
    intervalSteer start stop target x = .eq ↔
      start x ≤ target ∧ target < stop x := by
  unfold intervalSteer
  split_ifs with hlt hge
  · simp [hlt]
  · simp [hge]
  · simp [not_lt.mp hlt, not_le.mp hge]

theorem intervalSteer_eq_lt (target : κ) (x : α) :
    intervalSteer start stop target x = .lt ↔ target < start x := by
  unfold intervalSteer
  split_ifs with hlt hge
  · simp [hlt]
  · simp [hlt]
  · simp [hlt]

theorem Staircase.sharp {elements : List α}
    (hstairs : Staircase start stop elements) (target : κ) :
    Sharp (intervalSteer start stop target) elements := by
  apply hstairs.imp
  intro x y hxy hx
  have hbefore : target < start y := by
    unfold intervalSteer at hx
    split_ifs at hx with hlt hge
    · exact hlt.trans hxy.1
    · exact absurd rfl hx
    · exact (not_le.mp hge).trans_le hxy.2
  simp [intervalSteer, hbefore]

end Intervals

/-- A scan does not depend on the order when at most one element matches. -/
theorem find?_eq_of_perm {first second : List α} {matches? : α → Bool}
    (hperm : first.Perm second)
    (hunique : ∀ x ∈ first, ∀ y ∈ first, matches? x → matches? y → x = y) :
    first.find? matches? = second.find? matches? := by
  cases hfirst : first.find? matches? with
  | none =>
      rw [List.find?_eq_none] at hfirst
      symm
      rw [List.find?_eq_none]
      intro x hx
      exact hfirst x (hperm.mem_iff.mpr hx)
  | some x =>
      have hx := List.mem_of_find?_eq_some hfirst
      have hmatch := List.find?_some hfirst
      cases hsecond : second.find? matches? with
      | none =>
          rw [List.find?_eq_none] at hsecond
          exact absurd hmatch (hsecond x (hperm.mem_iff.mp hx))
      | some y =>
          have hy := hperm.mem_iff.mpr (List.mem_of_find?_eq_some hsecond)
          rw [hunique x hx y hy hmatch (List.find?_some hsecond)]

end SteeredTree

import Mathlib.Data.List.Basic
import Mathlib.Data.List.Pairwise
import Mathlib.Tactic

/-!
# Steered descent in coloured binary trees

A search tree is walked by a *steering* function, which looks at the payload of
the current node and says whether to go left, to go right or to stop.  Keyed
insertion and interval lookup are both such walks; they differ in the steering
alone.

The module is generic in the payload.  Its main result says when a walk amounts
to a plain scan of the in-order sequence, so that nothing about the shape or the
colours of the tree matters: the steering must be sharp on that sequence.
-/

namespace SteeredTree

universe u v

variable {α : Type u} {β : Type v}

inductive Color where
  | red
  | black
  deriving DecidableEq, Repr

inductive RbTree (α : Type u) where
  | nil
  | node (color : Color) (left : RbTree α) (data : α) (right : RbTree α)
  deriving DecidableEq, Repr

inductive Side where
  | left
  | right
  deriving DecidableEq, Repr

/-- A place in a tree: the turns taken from the root.  It addresses a node, or
the empty link that a walk fell off. -/
abbrev Place := List Side

namespace RbTree

def inorder : RbTree α → List α
  | .nil => []
  | .node _ left data right => left.inorder ++ data :: right.inorder

@[simp] theorem inorder_nil : (RbTree.nil : RbTree α).inorder = [] := rfl

@[simp] theorem inorder_node
    (color : Color) (left : RbTree α) (data : α) (right : RbTree α) :
    (RbTree.node color left data right).inorder =
      left.inorder ++ data :: right.inorder := rfl

def map (f : α → β) : RbTree α → RbTree β
  | .nil => .nil
  | .node color left data right =>
      .node color (left.map f) (f data) (right.map f)

@[simp] theorem map_nil (f : α → β) : (RbTree.nil : RbTree α).map f = .nil := rfl

@[simp] theorem map_node (f : α → β)
    (color : Color) (left : RbTree α) (data : α) (right : RbTree α) :
    (RbTree.node color left data right).map f =
      .node color (left.map f) (f data) (right.map f) := rfl

@[simp] theorem inorder_map (f : α → β) (tree : RbTree α) :
    (tree.map f).inorder = tree.inorder.map f := by
  induction tree with
  | nil => rfl
  | node color left data right ihLeft ihRight =>
      simp [ihLeft, ihRight]

/-- What precedes and what follows an empty link in the in-order sequence. -/
def gapAt : RbTree α → Place → Option (List α × List α)
  | .nil, [] => some ([], [])
  | .node _ left data right, .left :: place =>
      (left.gapAt place).map fun gap => (gap.1, gap.2 ++ data :: right.inorder)
  | .node _ left data right, .right :: place =>
      (right.gapAt place).map fun gap => (left.inorder ++ data :: gap.1, gap.2)
  | _, _ => none

def linkNode (fresh : α) : RbTree α → Place → RbTree α
  | .nil, [] => .node .red .nil fresh .nil
  | .node color left data right, .left :: place =>
      .node color (left.linkNode fresh place) data right
  | .node color left data right, .right :: place =>
      .node color left data (right.linkNode fresh place)
  | tree, _ => tree

@[simp] theorem map_linkNode (f : α → β) (fresh : α) (tree : RbTree α)
    (place : Place) :
    (tree.linkNode fresh place).map f = (tree.map f).linkNode (f fresh) place := by
  induction tree generalizing place with
  | nil => cases place <;> rfl
  | node color left data right ihLeft ihRight =>
      cases place with
      | nil => rfl
      | cons side place =>
          cases side with
          | left => simp [linkNode, ihLeft]
          | right => simp [linkNode, ihRight]

/-- The node at a place, with what precedes and follows it in order. -/
def nodeAt : RbTree α → Place → Option (List α × α × List α)
  | .node _ left data right, [] => some (left.inorder, data, right.inorder)
  | .node _ left data right, .left :: place =>
      (left.nodeAt place).map fun hit =>
        (hit.1, hit.2.1, hit.2.2 ++ data :: right.inorder)
  | .node _ left data right, .right :: place =>
      (right.nodeAt place).map fun hit =>
        (left.inorder ++ data :: hit.1, hit.2.1, hit.2.2)
  | .nil, _ => none

theorem gapAt_spec {tree : RbTree α} {place : Place} {before after : List α}
    (hgap : tree.gapAt place = some (before, after)) (fresh : α) :
    tree.inorder = before ++ after ∧
      (tree.linkNode fresh place).inorder = before ++ fresh :: after := by
  induction tree generalizing place before after with
  | nil =>
      cases place with
      | nil =>
          simp only [gapAt, Option.some.injEq, Prod.mk.injEq] at hgap
          obtain ⟨rfl, rfl⟩ := hgap
          exact ⟨rfl, rfl⟩
      | cons side place => simp [gapAt] at hgap
  | node color left data right ihLeft ihRight =>
      cases place with
      | nil => simp [gapAt] at hgap
      | cons side place =>
          cases side with
          | left =>
              simp only [gapAt, Option.map_eq_some_iff, Prod.mk.injEq] at hgap
              obtain ⟨⟨before', after'⟩, hgap, rfl, rfl⟩ := hgap
              obtain ⟨hold, hnew⟩ := ihLeft hgap
              simp [linkNode, hold, hnew]
          | right =>
              simp only [gapAt, Option.map_eq_some_iff, Prod.mk.injEq] at hgap
              obtain ⟨⟨before', after'⟩, hgap, rfl, rfl⟩ := hgap
              obtain ⟨hold, hnew⟩ := ihRight hgap
              simp [linkNode, hold, hnew]

theorem inorder_of_nodeAt {tree : RbTree α} {place : Place}
    {before after : List α} {data : α}
    (hnode : tree.nodeAt place = some (before, data, after)) :
    tree.inorder = before ++ data :: after := by
  induction tree generalizing place before after with
  | nil => simp [nodeAt] at hnode
  | node color left data' right ihLeft ihRight =>
      cases place with
      | nil =>
          simp only [nodeAt, Option.some.injEq, Prod.mk.injEq] at hnode
          obtain ⟨rfl, rfl, rfl⟩ := hnode
          rfl
      | cons side place =>
          cases side with
          | left =>
              simp only [nodeAt, Option.map_eq_some_iff, Prod.mk.injEq] at hnode
              obtain ⟨⟨before', hit, after'⟩, hnode, rfl, rfl, rfl⟩ := hnode
              simp [ihLeft hnode]
          | right =>
              simp only [nodeAt, Option.map_eq_some_iff, Prod.mk.injEq] at hnode
              obtain ⟨⟨before', hit, after'⟩, hnode, rfl, rfl, rfl⟩ := hnode
              simp [ihRight hnode]

end RbTree

inductive Descent (α : Type u) where
  | found (place : Place) (data : α)
  | vacant (place : Place)
  deriving DecidableEq, Repr

namespace Descent

def under (side : Side) : Descent α → Descent α
  | .found place data => .found (side :: place) data
  | .vacant place => .vacant (side :: place)

def data? : Descent α → Option α
  | .found _ data => some data
  | .vacant _ => none

/-- Where the walk ended. -/
def place : Descent α → Place
  | .found place _ => place
  | .vacant place => place

@[simp] theorem place_under (side : Side) (descent : Descent α) :
    (descent.under side).place = side :: descent.place := by
  cases descent <;> rfl

@[simp] theorem data?_found (place : Place) (data : α) :
    (Descent.found place data).data? = some data := rfl

@[simp] theorem data?_vacant (place : Place) :
    (Descent.vacant place : Descent α).data? = none := rfl

@[simp] theorem data?_under (side : Side) (descent : Descent α) :
    (descent.under side).data? = descent.data? := by
  cases descent <;> rfl

end Descent

namespace RbTree

/-- The walk itself.  `.lt` sends it left, `.gt` right, `.eq` stops it. -/
def descend (steer : α → Ordering) : RbTree α → Descent α
  | .nil => .vacant []
  | .node _ left data right =>
      match steer data with
      | .lt => (left.descend steer).under .left
      | .gt => (right.descend steer).under .right
      | .eq => .found [] data

theorem nodeAt_of_descend_found {steer : α → Ordering} {tree : RbTree α}
    {place : Place} {data : α}
    (hfound : tree.descend steer = .found place data) :
    steer data = .eq ∧
      ∃ before after, tree.nodeAt place = some (before, data, after) := by
  induction tree generalizing place with
  | nil => simp [descend] at hfound
  | node color left data' right ihLeft ihRight =>
      cases hsteer : steer data' with
      | lt =>
          simp only [descend, hsteer] at hfound
          cases hleft : left.descend steer with
          | vacant place' => simp [hleft, Descent.under] at hfound
          | found place' hit =>
              simp only [hleft, Descent.under, Descent.found.injEq] at hfound
              obtain ⟨rfl, rfl⟩ := hfound
              obtain ⟨heq, before, after, hnode⟩ := ihLeft hleft
              exact ⟨heq, before, after ++ data' :: right.inorder,
                by simp [nodeAt, hnode]⟩
      | eq =>
          simp only [descend, hsteer, Descent.found.injEq] at hfound
          obtain ⟨rfl, rfl⟩ := hfound
          exact ⟨hsteer, left.inorder, right.inorder, rfl⟩
      | gt =>
          simp only [descend, hsteer] at hfound
          cases hright : right.descend steer with
          | vacant place' => simp [hright, Descent.under] at hfound
          | found place' hit =>
              simp only [hright, Descent.under, Descent.found.injEq] at hfound
              obtain ⟨rfl, rfl⟩ := hfound
              obtain ⟨heq, before, after, hnode⟩ := ihRight hright
              exact ⟨heq, left.inorder ++ data' :: before, after,
                by simp [nodeAt, hnode]⟩

theorem mem_inorder_of_descend_found {steer : α → Ordering} {tree : RbTree α}
    {place : Place} {data : α}
    (hfound : tree.descend steer = .found place data) :
    data ∈ tree.inorder ∧ steer data = .eq := by
  obtain ⟨heq, before, after, hnode⟩ := nodeAt_of_descend_found hfound
  refine ⟨?_, heq⟩
  rw [inorder_of_nodeAt hnode]
  simp

theorem descend_map (steer : β → Ordering) (f : α → β) (tree : RbTree α) :
    (tree.map f).descend steer =
      match tree.descend (steer ∘ f) with
      | .found place data => .found place (f data)
      | .vacant place => .vacant place := by
  induction tree with
  | nil => rfl
  | node color left data right ihLeft ihRight =>
      cases hsteer : steer (f data) with
      | lt =>
          simp only [map, descend, Function.comp_apply, hsteer, ihLeft]
          cases left.descend (steer ∘ f) <;> rfl
      | eq => simp [descend, hsteer]
      | gt =>
          simp only [map, descend, Function.comp_apply, hsteer, ihRight]
          cases right.descend (steer ∘ f) <;> rfl

theorem data?_descend_map (steer : β → Ordering) (f : α → β) (tree : RbTree α) :
    ((tree.map f).descend steer).data? = (tree.descend (steer ∘ f)).data?.map f := by
  rw [descend_map]
  cases tree.descend (steer ∘ f) <;> rfl

end RbTree

/-! ## Sharp steering -/

/-- Whatever is not wholly before the target sends every later element past
it.  Along a sharp sequence the answers read `.gt … .gt`, at most one `.eq`,
`.lt … .lt`. -/
def Sharp (steer : α → Ordering) (elements : List α) : Prop :=
  elements.Pairwise fun x y => steer x ≠ .gt → steer y = .lt

namespace Sharp

variable {steer : α → Ordering}

theorem left_of_append {before after : List α}
    (hsharp : Sharp steer (before ++ after)) : Sharp steer before :=
  (List.pairwise_append.mp hsharp).1

theorem right_of_append {before after : List α}
    (hsharp : Sharp steer (before ++ after)) : Sharp steer after :=
  (List.pairwise_append.mp hsharp).2.1

theorem after_lt {before after : List α} {x : α}
    (hsharp : Sharp steer (before ++ x :: after)) (hx : steer x ≠ .gt) :
    ∀ y ∈ after, steer y = .lt := by
  intro y hy
  have hcons := hsharp.right_of_append
  exact (List.pairwise_cons.mp hcons).1 y hy hx

theorem before_gt {before after : List α} {x : α}
    (hsharp : Sharp steer (before ++ x :: after)) (hx : steer x ≠ .lt) :
    ∀ y ∈ before, steer y = .gt := by
  intro y hy
  by_contra hgt
  have hcross := (List.pairwise_append.mp hsharp).2.2 y hy x List.mem_cons_self
  exact hx (hcross hgt)

end Sharp

namespace RbTree

/-- Under sharp steering, what the walk finds is what a scan of the in-order
sequence finds: the shape of the tree is irrelevant. -/
theorem data?_descend_eq_find? {steer : α → Ordering} {tree : RbTree α}
    (hsharp : Sharp steer tree.inorder) :
    (tree.descend steer).data? =
      tree.inorder.find? fun x => steer x == .eq := by
  induction tree with
  | nil => rfl
  | node color left data right ihLeft ihRight =>
      have hleft : Sharp steer left.inorder := hsharp.left_of_append
      have hright : Sharp steer right.inorder :=
        (List.pairwise_cons.mp hsharp.right_of_append).2
      cases hsteer : steer data with
      | lt =>
          have hnone : (right.inorder.find? fun x => steer x == .eq) = none := by
            rw [List.find?_eq_none]
            intro y hy
            simp [hsharp.after_lt (by simp [hsteer]) y hy]
          simp [descend, hsteer, ihLeft hleft, List.find?_append, hnone]
      | eq =>
          have hnone : (left.inorder.find? fun x => steer x == .eq) = none := by
            rw [List.find?_eq_none]
            intro y hy
            simp [hsharp.before_gt (by simp [hsteer]) y hy]
          simp [descend, hsteer, List.find?_append, hnone]
      | gt =>
          have hnone : (left.inorder.find? fun x => steer x == .eq) = none := by
            rw [List.find?_eq_none]
            intro y hy
            simp [hsharp.before_gt (by simp [hsteer]) y hy]
          simp [descend, hsteer, ihRight hright, List.find?_append, hnone]

/-- Under sharp steering, a walk which falls off the tree ends in the gap where
the target belongs. -/
theorem gapAt_of_descend_vacant {steer : α → Ordering} {tree : RbTree α}
    {place : Place} (hsharp : Sharp steer tree.inorder)
    (hvacant : tree.descend steer = .vacant place) :
    ∃ before after,
      tree.gapAt place = some (before, after) ∧
      (∀ x ∈ before, steer x = .gt) ∧
      ∀ x ∈ after, steer x = .lt := by
  induction tree generalizing place with
  | nil =>
      simp only [descend, Descent.vacant.injEq] at hvacant
      subst place
      exact ⟨[], [], rfl, by simp, by simp⟩
  | node color left data right ihLeft ihRight =>
      have hleft : Sharp steer left.inorder := hsharp.left_of_append
      have hright : Sharp steer right.inorder :=
        (List.pairwise_cons.mp hsharp.right_of_append).2
      cases hsteer : steer data with
      | lt =>
          simp only [descend, hsteer] at hvacant
          cases hdescend : left.descend steer with
          | found place' hit => simp [hdescend, Descent.under] at hvacant
          | vacant place' =>
              simp only [hdescend, Descent.under, Descent.vacant.injEq] at hvacant
              subst place
              obtain ⟨before, after, hgap, hbefore, hafter⟩ := ihLeft hleft hdescend
              refine ⟨before, after ++ data :: right.inorder,
                by simp [gapAt, hgap], hbefore, ?_⟩
              intro x hx
              simp only [List.mem_append, List.mem_cons] at hx
              rcases hx with hx | rfl | hx
              · exact hafter x hx
              · exact hsteer
              · exact hsharp.after_lt (by simp [hsteer]) x hx
      | eq => simp [descend, hsteer] at hvacant
      | gt =>
          simp only [descend, hsteer] at hvacant
          cases hdescend : right.descend steer with
          | found place' hit => simp [hdescend, Descent.under] at hvacant
          | vacant place' =>
              simp only [hdescend, Descent.under, Descent.vacant.injEq] at hvacant
              subst place
              obtain ⟨before, after, hgap, hbefore, hafter⟩ :=
                ihRight hright hdescend
              refine ⟨left.inorder ++ data :: before, after,
                by simp [gapAt, hgap], ?_, hafter⟩
              intro x hx
              simp only [List.mem_append, List.mem_cons] at hx
              rcases hx with hx | rfl | hx
              · exact hsharp.before_gt (by simp [hsteer]) x hx
              · exact hsteer
              · exact hbefore x hx

end RbTree

end SteeredTree

import Carat.KernelRbtree

/-!
# Steered insertion

A red-black tree user searches for the link itself, guided by the payloads, and
leaves the repair to the kernel.  Insertion is therefore one definition with the
steering as a parameter.

An insertion looks at a payload through its steering only.  When the repair is
decided by shape, every change of payloads that the steering does not notice
carries over from the tree before to the tree after, and so through a whole build.
-/

namespace SteeredTree

variable {α β : Type}

/-- Link the element where the walk falls off the tree; `none` when it stops. -/
def insertBy (kernel : KernelRbtree) (steer : α → Ordering) (fresh : α) (tree : RbTree α) :
    Option (RbTree α) :=
  match tree.descend steer with
  | .found _ _ => none
  | .vacant link => some (kernel.rbInsertColor (tree.linkNode fresh link) link)

/-- Insert one after the other, each with its own steering; what is refused is dropped. -/
def insertAll (kernel : KernelRbtree) (steer : α → α → Ordering) (tree : RbTree α)
    (elements : List α) : RbTree α :=
  elements.foldl (fun tree fresh => (insertBy kernel (steer fresh) fresh tree).getD tree) tree

/-- Everything a sharply steered insertion can do. -/
theorem insertBy_cases {kernel : KernelRbtree} (hkernel : kernel.KeepsOrder)
    {steer : α → Ordering} {tree : RbTree α} (hsharp : Sharp steer tree.inorder) (fresh : α) :
    (insertBy kernel steer fresh tree = none ∧ ∃ old ∈ tree.inorder, steer old = .eq) ∨
      ∃ grown before after, insertBy kernel steer fresh tree = some grown ∧
        tree.inorder = before ++ after ∧
        (∀ x ∈ before, steer x = .gt) ∧ (∀ x ∈ after, steer x = .lt) ∧
        grown.inorder = before ++ fresh :: after := by
  unfold insertBy
  cases hdescend : tree.descend steer with
  | found place old => exact Or.inl ⟨rfl, old, RbTree.mem_inorder_of_descend_found hdescend⟩
  | vacant link =>
      obtain ⟨before, after, hgap, hbefore, hafter⟩ :=
        RbTree.gapAt_of_descend_vacant hsharp hdescend
      exact Or.inr ⟨_, before, after, rfl, (RbTree.gapAt_spec hgap fresh).1, hbefore, hafter,
        hkernel.insertColor fresh hgap⟩

section Maps

variable {kernel : KernelRbtree} (hshape : kernel.ShapeOnly)

include hshape

theorem map_insertBy (f : α → β) (steer : β → Ordering) (fresh : α) (tree : RbTree α) :
    (insertBy kernel (steer ∘ f) fresh tree).map (RbTree.map f) =
      insertBy kernel steer (f fresh) (tree.map f) := by
  unfold insertBy
  rw [RbTree.descend_map]
  cases tree.descend (steer ∘ f) with
  | found place old => rfl
  | vacant link =>
      change some ((kernel.rbInsertColor (tree.linkNode fresh link) link).map f) =
        some (kernel.rbInsertColor ((tree.map f).linkNode (f fresh) link) link)
      rw [hshape, RbTree.map_linkNode]

theorem map_insertAll (f : α → β) (steer : β → β → Ordering) (tree : RbTree α)
    (elements : List α) :
    (insertAll kernel (fun fresh => steer (f fresh) ∘ f) tree elements).map f =
      insertAll kernel steer (tree.map f) (elements.map f) := by
  unfold insertAll
  induction elements generalizing tree with
  | nil => rfl
  | cons fresh rest ih =>
      rw [List.foldl_cons, ih, List.map_cons, List.foldl_cons, ← map_insertBy hshape,
        Option.getD_map]

end Maps

end SteeredTree

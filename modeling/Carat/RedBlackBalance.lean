import Carat.KernelRbtree
import Mathlib.Data.Nat.Log

/-!
# Balance

The colours keep a tree flat: no red node has a red child, and every way down
passes equally many black nodes.  A tree of `n` nodes is then at most
`2 * log₂ (n + 1)` deep, which bounds what a walk can visit.  That linking a leaf
and repairing the tree keeps the colours right is a third law of the library.
-/

namespace SteeredTree

universe u

variable {α : Type u}

namespace RbTree

def height : RbTree α → ℕ
  | .nil => 0
  | .node _ left _ right => max left.height right.height + 1

/-- The elements that a walk looks at. -/
def trail (steer : α → Ordering) : RbTree α → List α
  | .nil => []
  | .node _ left data right =>
      data ::
        match steer data with
        | .lt => left.trail steer
        | .gt => right.trail steer
        | .eq => []

theorem length_trail_le_height (steer : α → Ordering) (tree : RbTree α) :
    (tree.trail steer).length ≤ tree.height := by
  induction tree with
  | nil => exact le_rfl
  | node color left data right ihLeft ihRight =>
      simp only [trail, height, List.length_cons]
      cases steer data with
      | lt => simpa using Or.inl ihLeft
      | eq => simp
      | gt => simpa using Or.inr ihRight

/-- The colours are right: `blacks` black nodes on every way down. -/
inductive Balanced : RbTree α → Color → ℕ → Prop where
  | nil : Balanced .nil .black 0
  | red {left right : RbTree α} {data : α} {blacks : ℕ} :
      Balanced left .black blacks → Balanced right .black blacks →
        Balanced (.node .red left data right) .red blacks
  | black {left right : RbTree α} {data : α} {blacks : ℕ} {color color' : Color} :
      Balanced left color blacks → Balanced right color' blacks →
        Balanced (.node .black left data right) .black (blacks + 1)

/-- A whole tree: its root is black. -/
def RedBlack (tree : RbTree α) : Prop := ∃ blacks, Balanced tree .black blacks

theorem redBlack_nil : (RbTree.nil : RbTree α).RedBlack := ⟨0, .nil⟩

section Height

variable {tree : RbTree α} {color : Color} {blacks : ℕ}

theorem Balanced.two_pow_le (hbalanced : tree.Balanced color blacks) :
    2 ^ blacks ≤ tree.inorder.length + 1 := by
  induction hbalanced with
  | nil => simp
  | red _ _ ihLeft ihRight =>
      rw [inorder_node, List.length_append, List.length_cons]
      omega
  | black _ _ ihLeft ihRight =>
      rw [inorder_node, List.length_append, List.length_cons, pow_succ]
      omega

theorem Balanced.height_le (hbalanced : tree.Balanced color blacks) :
    tree.height ≤ 2 * blacks + (if color = .red then 1 else 0) := by
  induction hbalanced with
  | nil => simp [height]
  | red _ _ ihLeft ihRight =>
      simp only [height, reduceCtorEq, if_false, if_true] at *
      omega
  | @black _ _ _ _ left right _ _ ihLeft ihRight =>
      have hleft : (if left = .red then 1 else 0) ≤ 1 := by split <;> omega
      have hright : (if right = .red then 1 else 0) ≤ 1 := by split <;> omega
      simp only [height, reduceCtorEq, if_false]
      omega

theorem RedBlack.height_le (hredBlack : tree.RedBlack) :
    tree.height ≤ 2 * Nat.log 2 (tree.inorder.length + 1) := by
  obtain ⟨blacks, hbalanced⟩ := hredBlack
  have hheight := hbalanced.height_le
  have hlog : blacks ≤ Nat.log 2 (tree.inorder.length + 1) :=
    Nat.le_log_of_pow_le (by omega) hbalanced.two_pow_le
  rw [if_neg (by simp)] at hheight
  omega

theorem RedBlack.length_trail_le (hredBlack : tree.RedBlack) (steer : α → Ordering) :
    (tree.trail steer).length ≤ 2 * Nat.log 2 (tree.inorder.length + 1) :=
  (length_trail_le_height steer tree).trans hredBlack.height_le

end Height

end RbTree

/-- Repairing a tree after a red leaf was linked puts its colours right. -/
def KernelRbtree.KeepsBalance (kernel : KernelRbtree) : Prop :=
  ∀ {α : Type} {tree : RbTree α} {place : Place} (fresh : α), tree.RedBlack →
    (tree.gapAt place).isSome = true →
      (kernel.rbInsertColor (tree.linkNode fresh place) place).RedBlack

/-! ## The bottom-up repair keeps the balance -/

namespace RbTree

variable {α : Type}

/-- Below these turns a tree of this colour and with so many black nodes is
missing. -/
inductive Misses : List (Turn α) → Color → ℕ → Prop where
  | root {blacks : ℕ} : Misses [] .black blacks
  | red {turn : Turn α} {turns : List (Turn α)} {blacks : ℕ} :
      turn.color = .red → turn.sibling.Balanced .black blacks → Misses turns .red blacks →
        Misses (turn :: turns) .black blacks
  | black {turn : Turn α} {turns : List (Turn α)} {color color' : Color} {blacks : ℕ} :
      turn.color = .black → turn.sibling.Balanced color' blacks →
        Misses turns .black (blacks + 1) → Misses (turn :: turns) color blacks

section Turns

variable {turn : Turn α} {turns : List (Turn α)} {tree child : RbTree α} {color color' : Color}
  {blacks : ℕ}

theorem balanced_plug_red (hcolor : turn.color = .red)
    (hsibling : turn.sibling.Balanced .black blacks) (hchild : child.Balanced .black blacks) :
    (turn.plug child).Balanced .red blacks := by
  obtain ⟨side, color, data, sibling⟩ := turn
  obtain rfl : color = .red := hcolor
  cases side with
  | left => exact .red hchild hsibling
  | right => exact .red hsibling hchild

theorem balanced_plug_black (hcolor : turn.color = .black)
    (hsibling : turn.sibling.Balanced color' blacks) (hchild : child.Balanced color blacks) :
    (turn.plug child).Balanced .black (blacks + 1) := by
  obtain ⟨side, color, data, sibling⟩ := turn
  obtain rfl : color = .black := hcolor
  cases side with
  | left => exact .black hchild hsibling
  | right => exact .black hsibling hchild

theorem Misses.unwind (hmisses : Misses turns color blacks) (htree : tree.Balanced color blacks) :
    (unwind tree turns).RedBlack := by
  induction hmisses generalizing tree with
  | root => exact ⟨_, htree⟩
  | red hcolor hsibling _ ih => exact ih (balanced_plug_red hcolor hsibling htree)
  | black hcolor hsibling _ ih => exact ih (balanced_plug_black hcolor hsibling htree)

theorem Misses.of_red (hmisses : Misses turns .red blacks) :
    ∃ turn rest color', turns = turn :: rest ∧ turn.color = .black ∧
      turn.sibling.Balanced color' blacks ∧ Misses rest .black (blacks + 1) := by
  cases hmisses with
  | black hcolor hsibling hrest => exact ⟨_, _, _, rfl, hcolor, hsibling, hrest⟩

theorem balanced_blacken_of_isRed (htree : tree.Balanced color blacks)
    (hred : tree.isRed = true) : tree.blacken.Balanced .black (blacks + 1) := by
  cases htree with
  | nil => simp [isRed] at hred
  | red hleft hright => exact .black hleft hright
  | black => simp [isRed] at hred

theorem Balanced.black_of_not_isRed (htree : tree.Balanced color blacks)
    (hnot : ¬tree.isRed = true) : tree.Balanced .black blacks := by
  cases htree with
  | nil => exact .nil
  | red => simp [isRed] at hnot
  | black hleft hright => exact .black hleft hright

/-- Rotating puts a black node on top of two red ones. -/
theorem balanced_rotate {parent gparent : Turn α} (hchild : child.Balanced .red blacks)
    (hparent : parent.sibling.Balanced .black blacks)
    (hgparent : gparent.sibling.Balanced .black blacks) :
    (rotate child parent gparent).Balanced .black (blacks + 1) := by
  obtain ⟨side, color, data, sibling⟩ := parent
  obtain ⟨side', color', data', sibling'⟩ := gparent
  cases hchild with
  | red hleft hright =>
      cases side <;> cases side'
      · exact .black (.red hleft hright) (.red hparent hgparent)
      · exact .black (.red hgparent hleft) (.red hright hparent)
      · exact .black (.red hparent hleft) (.red hright hgparent)
      · exact .black (.red hgparent hparent) (.red hleft hright)

/-- A red tree is put where a black one is missing. -/
theorem repair_redBlack (hchild : child.Balanced .red blacks)
    (hmisses : Misses turns .black blacks) : (repair child turns).RedBlack := by
  induction child, turns using repair.induct generalizing blacks with
  | case1 child =>
      rw [repair]
      exact ⟨_, balanced_blacken_of_isRed hchild (by cases hchild; rfl)⟩
  | case2 child root =>
      rw [repair]
      cases hmisses with
      | red _ _ hroot => exact absurd hroot (fun h => by cases h)
      | black hcolor hsibling hroot => exact ⟨_, balanced_plug_black rfl hsibling hchild⟩
  | case3 child parent gparent turns hblack =>
      rw [repair, if_pos hblack]
      cases hmisses with
      | red hcolor => exact absurd (hcolor.symm.trans hblack) (by simp)
      | black hcolor hsibling hrest =>
          exact hrest.unwind (balanced_plug_black hcolor hsibling hchild)
  | case4 child parent gparent turns hred huncle ih =>
      rw [repair, if_neg hred, if_pos huncle]
      cases hmisses with
      | black hcolor => exact absurd hcolor hred
      | red hcolor hsibling hrest =>
          obtain ⟨_, _, _, heq, hgparent, huncle', hrest⟩ := hrest.of_red
          obtain ⟨rfl, rfl⟩ := List.cons.inj heq
          have hparent : ({ parent with color := .black }.plug child).Balanced .black _ :=
            balanced_plug_black rfl hsibling hchild
          exact ih (balanced_plug_red rfl (balanced_blacken_of_isRed huncle' huncle) hparent) hrest
  | case5 child parent gparent turns hred huncle =>
      rw [repair, if_neg hred, if_neg huncle]
      cases hmisses with
      | black hcolor => exact absurd hcolor hred
      | red hcolor hsibling hrest =>
          obtain ⟨_, _, _, heq, hgparent, huncle', hrest⟩ := hrest.of_red
          obtain ⟨rfl, rfl⟩ := List.cons.inj heq
          exact hrest.unwind
            (balanced_rotate hchild hsibling (huncle'.black_of_not_isRed huncle))

/-- What is missing at an empty link is the empty tree. -/
theorem openAt_linkNode (htree : tree.Balanced color blacks) (hmisses : Misses turns color blacks)
    {place : Place} (hgap : (tree.gapAt place).isSome = true) (fresh : α) :
    ((tree.linkNode fresh place).openAt place turns).1 = .node .red .nil fresh .nil ∧
      Misses ((tree.linkNode fresh place).openAt place turns).2 .black 0 := by
  induction htree generalizing turns place with
  | nil =>
      cases place with
      | nil => exact ⟨rfl, hmisses⟩
      | cons side place => cases side <;> simp [gapAt] at hgap
  | red hleft hright ihLeft ihRight =>
      cases place with
      | nil => simp [gapAt] at hgap
      | cons side place =>
          cases side with
          | left => exact ihLeft (.red rfl hright hmisses) (by simpa [gapAt] using hgap)
          | right => exact ihRight (.red rfl hleft hmisses) (by simpa [gapAt] using hgap)
  | black hleft hright ihLeft ihRight =>
      cases place with
      | nil => simp [gapAt] at hgap
      | cons side place =>
          cases side with
          | left => exact ihLeft (.black rfl hright hmisses) (by simpa [gapAt] using hgap)
          | right => exact ihRight (.black rfl hleft hmisses) (by simpa [gapAt] using hgap)

end Turns

end RbTree

theorem bottomUpRbtree_keepsBalance : bottomUpRbtree.KeepsBalance := by
  intro α tree place fresh hredBlack hgap
  obtain ⟨blacks, hbalanced⟩ := hredBlack
  obtain ⟨hleaf, hmisses⟩ := RbTree.openAt_linkNode hbalanced .root hgap fresh
  simp only [bottomUpRbtree, hleaf]
  exact RbTree.repair_redBlack (.red .nil .nil) hmisses

end SteeredTree

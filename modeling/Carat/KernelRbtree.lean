import Carat.SteeredTree

/-!
# The kernel's red-black tree library, as its users see it

`rb_insert_color` and `rb_erase` belong to the kernel, so they are parameters
here.  Both receive a tree together with the place of a node in it, and both
handle `rb_node`s only: they cannot look at a payload, hence the polymorphism.
What callers may rely on is split into two named laws, so that each result asks
for no more than it uses.

The second half gives one implementation of the interface, the kernel's
bottom-up insertion repair over an explicit path, and shows that the laws hold of
it.
-/

namespace SteeredTree

structure KernelRbtree where
  rbInsertColor : {α : Type} → RbTree α → Place → RbTree α
  rbErase : {α : Type} → RbTree α → Place → RbTree α

namespace KernelRbtree

/-- Repairing a tree after a leaf was linked only rotates and recolours;
erasing removes one node and then does the same. -/
structure KeepsOrder (kernel : KernelRbtree) : Prop where
  insertColor : ∀ {α : Type} {tree : RbTree α} {place : Place}
    {before after : List α} (fresh : α),
    tree.gapAt place = some (before, after) →
      (kernel.rbInsertColor (tree.linkNode fresh place) place).inorder =
        before ++ fresh :: after
  erase : ∀ {α : Type} {tree : RbTree α} {place : Place}
    {before after : List α} {data : α},
    tree.nodeAt place = some (before, data, after) →
      (kernel.rbErase tree place).inorder = before ++ after

/-- The repair after an insertion is decided by shape and colours alone. -/
def ShapeOnly (kernel : KernelRbtree) : Prop :=
  ∀ {α β : Type} (f : α → β) (tree : RbTree α) (place : Place),
    (kernel.rbInsertColor tree place).map f =
      kernel.rbInsertColor (tree.map f) place

end KernelRbtree

/-! ## One implementation -/

namespace RbTree

variable {α : Type} {β : Type}

def blacken : RbTree α → RbTree α
  | .nil => .nil
  | .node _ left data right => .node .black left data right

def isRed : RbTree α → Bool
  | .node .red _ _ _ => true
  | _ => false

@[simp] theorem inorder_blacken (tree : RbTree α) :
    tree.blacken.inorder = tree.inorder := by
  cases tree <;> rfl

@[simp] theorem map_blacken (f : α → β) (tree : RbTree α) :
    tree.blacken.map f = (tree.map f).blacken := by
  cases tree <;> rfl

@[simp] theorem isRed_map (f : α → β) (tree : RbTree α) :
    (tree.map f).isRed = tree.isRed := by
  cases tree with
  | nil => rfl
  | node color left data right => cases color <;> rfl

/-- One ancestor on the path from a node to the root, with the subtree that
hangs on its other side. -/
structure Turn (α : Type) where
  side : Side
  color : Color
  data : α
  sibling : RbTree α

def Turn.plug (turn : Turn α) (child : RbTree α) : RbTree α :=
  match turn.side with
  | .left => .node turn.color child turn.data turn.sibling
  | .right => .node turn.color turn.sibling turn.data child

def Turn.map (f : α → β) (turn : Turn α) : Turn β where
  side := turn.side
  color := turn.color
  data := f turn.data
  sibling := turn.sibling.map f

@[simp] theorem Turn.map_plug (f : α → β) (turn : Turn α) (child : RbTree α) :
    (turn.plug child).map f = (turn.map f).plug (child.map f) := by
  obtain ⟨side, color, data, sibling⟩ := turn
  cases side <;> rfl

def unwind : RbTree α → List (Turn α) → RbTree α
  | tree, [] => tree
  | tree, turn :: turns => unwind (turn.plug tree) turns

def openAt : RbTree α → Place → List (Turn α) → RbTree α × List (Turn α)
  | .node color left data right, .left :: place, turns =>
      left.openAt place (⟨.left, color, data, right⟩ :: turns)
  | .node color left data right, .right :: place, turns =>
      right.openAt place (⟨.right, color, data, left⟩ :: turns)
  | tree, _, turns => (tree, turns)

/-- The one or two rotations at a red parent whose sibling is black. -/
def rotate (child : RbTree α) (parent gparent : Turn α) : RbTree α :=
  match gparent.side, parent.side, child with
  | .left, .left, child =>
      .node .black child parent.data
        (.node .red parent.sibling gparent.data gparent.sibling)
  | .right, .right, child =>
      .node .black
        (.node .red gparent.sibling gparent.data parent.sibling) parent.data child
  | .left, .right, .node _ inner data outer =>
      .node .black (.node .red parent.sibling parent.data inner) data
        (.node .red outer gparent.data gparent.sibling)
  | .right, .left, .node _ outer data inner =>
      .node .black (.node .red gparent.sibling gparent.data outer) data
        (.node .red inner parent.data parent.sibling)
  | _, _, .nil => gparent.plug (parent.plug .nil)

/-- Repair a red node below a possibly red parent, from the bottom up. -/
def repair : RbTree α → List (Turn α) → RbTree α
  | child, [] => child.blacken
  | child, [root] => { root with color := .black }.plug child
  | child, parent :: gparent :: turns =>
      if parent.color = .black then
        unwind (parent.plug child) (gparent :: turns)
      else if gparent.sibling.isRed then
        repair
          ({ gparent with color := .red, sibling := gparent.sibling.blacken }.plug
            ({ parent with color := .black }.plug child))
          turns
      else
        unwind (rotate child parent gparent) turns

def popFirst : RbTree α → Option (α × RbTree α)
  | .nil => none
  | .node color left data right =>
      match left.popFirst with
      | none => some (data, right)
      | some (first, left') => some (first, .node color left' data right)

/-- Splice the root out: its successor takes its place and colour. -/
def eraseRoot : RbTree α → RbTree α
  | .nil => .nil
  | .node color left _ right =>
      match left, right.popFirst with
      | .nil, _ => right
      | left, none => left
      | left, some (successor, right') => .node color left successor right'

def eraseAt : RbTree α → Place → RbTree α
  | .node color left data right, .left :: place =>
      .node color (left.eraseAt place) data right
  | .node color left data right, .right :: place =>
      .node color left data (right.eraseAt place)
  | tree, _ => tree.eraseRoot

/-! ### The in-order sequence is kept -/

def spread : List α → List (Turn α) → List α
  | inner, [] => inner
  | inner, turn :: turns =>
      match turn.side with
      | .left => spread (inner ++ turn.data :: turn.sibling.inorder) turns
      | .right => spread (turn.sibling.inorder ++ turn.data :: inner) turns

theorem spread_plug (turn : Turn α) (child : RbTree α) (turns : List (Turn α)) :
    spread (turn.plug child).inorder turns = spread child.inorder (turn :: turns) := by
  obtain ⟨side, color, data, sibling⟩ := turn
  cases side <;> rfl

theorem inorder_unwind (tree : RbTree α) (turns : List (Turn α)) :
    (unwind tree turns).inorder = spread tree.inorder turns := by
  induction turns generalizing tree with
  | nil => rfl
  | cons turn turns ih => rw [unwind, ih, spread_plug]

theorem inorder_rotate (child : RbTree α) (parent gparent : Turn α)
    (turns : List (Turn α)) :
    spread (rotate child parent gparent).inorder turns =
      spread child.inorder (parent :: gparent :: turns) := by
  obtain ⟨pside, pcolor, pdata, psibling⟩ := parent
  obtain ⟨gside, gcolor, gdata, gsibling⟩ := gparent
  cases pside <;> cases gside <;> cases child <;>
    simp [rotate, spread, Turn.plug]

theorem spread_recolor (inner : List α) (turn : Turn α) (color : Color)
    (sibling : RbTree α) (hsibling : sibling.inorder = turn.sibling.inorder)
    (turns : List (Turn α)) :
    spread inner ({ turn with color := color, sibling := sibling } :: turns) =
      spread inner (turn :: turns) := by
  obtain ⟨side, _, _, _⟩ := turn
  cases side <;> simp_all [spread]

theorem inorder_repair (child : RbTree α) (turns : List (Turn α)) :
    (repair child turns).inorder = spread child.inorder turns := by
  induction child, turns using repair.induct with
  | case1 child => simp [repair, spread]
  | case2 child root =>
      calc
        (repair child [root]).inorder =
            spread ({ root with color := .black }.plug child).inorder [] := rfl
        _ = spread child.inorder [{ root with color := .black }] :=
          spread_plug _ child []
        _ = spread child.inorder [root] :=
          spread_recolor _ root .black root.sibling rfl []
  | case3 child parent gparent turns hblack =>
      rw [repair, if_pos hblack, inorder_unwind, spread_plug]
  | case4 child parent gparent turns hred huncle ih =>
      rw [repair, if_neg hred, if_pos huncle, ih, spread_plug,
        spread_recolor _ gparent .red _ (inorder_blacken _), spread_plug]
      exact spread_recolor _ parent .black parent.sibling rfl _
  | case5 child parent gparent turns hred huncle =>
      rw [repair, if_neg hred, if_neg huncle, inorder_unwind, inorder_rotate]

theorem spread_openAt (tree : RbTree α) (place : Place) (turns : List (Turn α)) :
    spread (tree.openAt place turns).1.inorder (tree.openAt place turns).2 =
      spread tree.inorder turns := by
  induction tree generalizing place turns with
  | nil => cases place <;> rfl
  | node color left data right ihLeft ihRight =>
      cases place with
      | nil => rfl
      | cons side place =>
          cases side with
          | left => simp [openAt, ihLeft, spread]
          | right => simp [openAt, ihRight, spread]

theorem popFirst_spec (tree : RbTree α) :
    match tree.popFirst with
    | none => tree = .nil
    | some (first, rest) => tree.inorder = first :: rest.inorder := by
  induction tree with
  | nil => rfl
  | node color left data right ihLeft _ =>
      cases hpop : left.popFirst with
      | none =>
          simp only [hpop] at ihLeft
          simp [popFirst, ihLeft]
      | some hit =>
          simp only [hpop] at ihLeft
          simp [popFirst, hpop, ihLeft]

theorem inorder_eraseRoot (color : Color) (left : RbTree α) (data : α)
    (right : RbTree α) :
    (RbTree.node color left data right).eraseRoot.inorder =
      left.inorder ++ right.inorder := by
  have hpop := popFirst_spec right
  cases left with
  | nil => simp [eraseRoot]
  | node c l x r =>
      cases hfirst : right.popFirst with
      | none =>
          simp only [hfirst] at hpop
          simp [eraseRoot, hpop, popFirst]
      | some hit =>
          simp only [hfirst] at hpop
          simp [eraseRoot, hfirst, hpop]

theorem inorder_eraseAt {tree : RbTree α} {place : Place}
    {before after : List α} {data : α}
    (hnode : tree.nodeAt place = some (before, data, after)) :
    (tree.eraseAt place).inorder = before ++ after := by
  induction tree generalizing place before after with
  | nil => simp [nodeAt] at hnode
  | node color left data' right ihLeft ihRight =>
      cases place with
      | nil =>
          simp only [nodeAt, Option.some.injEq, Prod.mk.injEq] at hnode
          obtain ⟨rfl, rfl, rfl⟩ := hnode
          exact inorder_eraseRoot color left data' right
      | cons side place =>
          cases side with
          | left =>
              simp only [nodeAt, Option.map_eq_some_iff, Prod.mk.injEq] at hnode
              obtain ⟨⟨before', hit, after'⟩, hnode, rfl, rfl, rfl⟩ := hnode
              simp [eraseAt, ihLeft hnode]
          | right =>
              simp only [nodeAt, Option.map_eq_some_iff, Prod.mk.injEq] at hnode
              obtain ⟨⟨before', hit, after'⟩, hnode, rfl, rfl, rfl⟩ := hnode
              simp [eraseAt, ihRight hnode]

/-! ### Payloads are never looked at -/

theorem map_unwind (f : α → β) (tree : RbTree α) (turns : List (Turn α)) :
    (unwind tree turns).map f =
      unwind (tree.map f) (turns.map (Turn.map f)) := by
  induction turns generalizing tree with
  | nil => rfl
  | cons turn turns ih => simp [unwind, ih]

theorem map_rotate (f : α → β) (child : RbTree α) (parent gparent : Turn α) :
    (rotate child parent gparent).map f =
      rotate (child.map f) (parent.map f) (gparent.map f) := by
  obtain ⟨pside, pcolor, pdata, psibling⟩ := parent
  obtain ⟨gside, gcolor, gdata, gsibling⟩ := gparent
  cases pside <;> cases gside <;> cases child <;> rfl

theorem map_repair (f : α → β) (child : RbTree α) (turns : List (Turn α)) :
    (repair child turns).map f =
      repair (child.map f) (turns.map (Turn.map f)) := by
  induction child, turns using repair.induct with
  | case1 child => simp [repair]
  | case2 child root => simp [repair, Turn.map]
  | case3 child parent gparent turns hblack =>
      simp [repair, hblack, map_unwind, Turn.map]
  | case4 child parent gparent turns hred huncle ih =>
      simp [repair, hred, huncle, ih, Turn.map]
  | case5 child parent gparent turns hred huncle =>
      simp [repair, hred, huncle, map_unwind, map_rotate, Turn.map]

theorem map_openAt (f : α → β) (tree : RbTree α) (place : Place)
    (turns : List (Turn α)) :
    (tree.map f).openAt place (turns.map (Turn.map f)) =
      ((tree.openAt place turns).1.map f,
        (tree.openAt place turns).2.map (Turn.map f)) := by
  induction tree generalizing place turns with
  | nil => cases place <;> rfl
  | node color left data right ihLeft ihRight =>
      cases place with
      | nil => rfl
      | cons side place =>
          cases side with
          | left =>
              simpa [openAt, Turn.map] using
                ihLeft place (⟨.left, color, data, right⟩ :: turns)
          | right =>
              simpa [openAt, Turn.map] using
                ihRight place (⟨.right, color, data, left⟩ :: turns)

end RbTree

/-- The kernel's insertion repair.  Erasing leaves out the recolouring that follows the
removal of a black node: the in-order sequence is the kernel's, the shape need not be. -/
def bottomUpRbtree : KernelRbtree where
  rbInsertColor tree place :=
    let opened := tree.openAt place []
    RbTree.repair opened.1 opened.2
  rbErase tree place := tree.eraseAt place

theorem bottomUpRbtree_keepsOrder : bottomUpRbtree.KeepsOrder where
  insertColor fresh hgap := by
    have hnew := (RbTree.gapAt_spec hgap fresh).2
    rw [← hnew]
    simp only [bottomUpRbtree, RbTree.inorder_repair, RbTree.spread_openAt]
    rfl
  erase hnode := RbTree.inorder_eraseAt hnode

theorem bottomUpRbtree_shapeOnly : bottomUpRbtree.ShapeOnly := by
  intro α β f tree place
  have hopen := RbTree.map_openAt f tree place []
  simp only [List.map_nil] at hopen
  simp [bottomUpRbtree, hopen, RbTree.map_repair]

end SteeredTree

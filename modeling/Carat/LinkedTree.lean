import Carat.SteeredTree

/-!
# Trees of linked records

A tree in memory is a family of records that point at each other.  `Linked`
relates such a family to the tree it spells; `store` writes a tree into memory
and `load` reads it back.

Walks over linked records are given one record at a time, so that other steps may
come between: `Seeks` is a search along a steering, and `advance` moves the
cursor of an in-order traversal, going by child and parent pointers.  Both are
tied to the tree by a result about memory that does not change.
-/

namespace SteeredTree

universe u

variable {β : Type u}

abbrev Ptr := ℕ

structure LinkedNode (β : Type u) where
  data : β
  parent : Option Ptr
  color : Color
  left : Option Ptr
  right : Option Ptr
  deriving DecidableEq, Repr

/-- Memory, as far as it holds tree records. -/
abbrev Nodes (β : Type u) := Ptr → Option (LinkedNode β)

def restrict (nodes : Nodes β) (pointers : List Ptr) : Nodes β := fun p =>
  if p ∈ pointers then nodes p else none

theorem eq_of_restrict {nodes : Nodes β} {pointers : List Ptr} {p : Ptr}
    {cell : LinkedNode β} (hcell : restrict nodes pointers p = some cell) :
    nodes p = some cell := by
  unfold restrict at hcell
  split at hcell
  · exact hcell
  · simp at hcell

theorem restrict_congr {nodes nodes' : Nodes β} {pointers : List Ptr}
    (hsame : ∀ p ∈ pointers, nodes' p = nodes p) :
    restrict nodes' pointers = restrict nodes pointers := by
  funext p
  unfold restrict
  split
  next hmem => exact hsame p hmem
  next => rfl

namespace RbTree

def pointers (tree : RbTree (Ptr × β)) : List Ptr := tree.inorder.map Prod.fst

def top : RbTree (Ptr × β) → Option Ptr
  | .nil => none
  | .node _ _ data _ => some data.1

@[simp] theorem pointers_nil : (RbTree.nil : RbTree (Ptr × β)).pointers = [] := rfl

@[simp] theorem pointers_node (color : Color) (left : RbTree (Ptr × β))
    (data : Ptr × β) (right : RbTree (Ptr × β)) :
    (RbTree.node color left data right).pointers =
      left.pointers ++ data.1 :: right.pointers := by
  simp [pointers]

theorem mem_pointers_of_top {tree : RbTree (Ptr × β)} {p : Ptr}
    (htop : tree.top = some p) : p ∈ tree.pointers := by
  cases tree with
  | nil => simp [top] at htop
  | node color left data right =>
      simp only [top, Option.some.injEq] at htop
      simp [htop]

def store (nodes : Nodes β) (parent : Option Ptr) : RbTree (Ptr × β) → Nodes β
  | .nil => nodes
  | .node color left (p, data) right =>
      Function.update
        (right.store (left.store nodes (some p)) (some p)) p
        (some ⟨data, parent, color, left.top, right.top⟩)

theorem store_of_not_mem {nodes : Nodes β} {parent : Option Ptr}
    {tree : RbTree (Ptr × β)} {p : Ptr} (hnot : p ∉ tree.pointers) :
    tree.store nodes parent p = nodes p := by
  induction tree generalizing nodes parent with
  | nil => rfl
  | node color left data right ihLeft ihRight =>
      simp only [pointers_node, List.mem_append, List.mem_cons, not_or] at hnot
      obtain ⟨hleft, hne, hright⟩ := hnot
      rw [store, Function.update_of_ne hne, ihRight hright, ihLeft hleft]

end RbTree

/-- The records reached from a pointer spell a tree. -/
inductive Linked (nodes : Nodes β) :
    Option Ptr → Option Ptr → RbTree (Ptr × β) → Prop where
  | nil {parent : Option Ptr} : Linked nodes parent none .nil
  | node {parent left right : Option Ptr} {p : Ptr} {data : β} {color : Color}
      {leftTree rightTree : RbTree (Ptr × β)} :
      nodes p = some ⟨data, parent, color, left, right⟩ →
        Linked nodes (some p) left leftTree →
        Linked nodes (some p) right rightTree →
          Linked nodes parent (some p) (.node color leftTree (p, data) rightTree)

namespace Linked

variable {nodes nodes' : Nodes β} {parent top : Option Ptr}
  {tree : RbTree (Ptr × β)}

theorem top_eq (hlinked : Linked nodes parent top tree) : tree.top = top := by
  cases hlinked <;> rfl

theorem frame (hlinked : Linked nodes parent top tree)
    (hsame : ∀ p ∈ tree.pointers, nodes' p = nodes p) :
    Linked nodes' parent top tree := by
  induction hlinked with
  | nil => exact .nil
  | node hcell _ _ ihLeft ihRight =>
      simp only [RbTree.pointers_node] at hsame
      refine .node (by rw [hsame _ (by simp), hcell]) (ihLeft ?_) (ihRight ?_)
      · intro q hq
        exact hsame q (by simp [hq])
      · intro q hq
        exact hsame q (by simp [hq])

theorem restrict (hlinked : Linked nodes parent top tree) :
    Linked (restrict nodes tree.pointers) parent top tree := by
  apply hlinked.frame
  intro p hp
  simp [SteeredTree.restrict, hp]

theorem ne_none (hlinked : Linked nodes parent top tree) {p : Ptr}
    (hp : p ∈ tree.pointers) : nodes p ≠ none := by
  induction hlinked with
  | nil => simp at hp
  | node hcell _ _ ihLeft ihRight =>
      simp only [RbTree.pointers_node, List.mem_append, List.mem_cons] at hp
      rcases hp with hp | rfl | hp
      · exact ihLeft hp
      · simp [hcell]
      · exact ihRight hp

end Linked

theorem RbTree.linked_store {tree : RbTree (Ptr × β)} (nodes : Nodes β)
    (parent : Option Ptr) (hnodup : tree.pointers.Nodup) :
    Linked (tree.store nodes parent) parent tree.top tree := by
  induction tree generalizing nodes parent with
  | nil => exact .nil
  | node color left data right ihLeft ihRight =>
      obtain ⟨p, data⟩ := data
      simp only [pointers_node, List.nodup_append, List.nodup_cons, List.mem_cons,
        ne_eq] at hnodup
      obtain ⟨hleftNodup, ⟨hpRight, hrightNodup⟩, hdisjoint⟩ := hnodup
      have hcell : (RbTree.node color left (p, data) right).store nodes parent p =
          some ⟨data, parent, color, left.top, right.top⟩ :=
        Function.update_self ..
      refine .node hcell ?_ ?_
      · apply (ihLeft nodes (some p) hleftNodup).frame
        intro q hq
        have hne : q ≠ p := hdisjoint q hq p (Or.inl rfl)
        have hright : q ∉ right.pointers := fun hmem =>
          hdisjoint q hq q (Or.inr hmem) rfl
        rw [store, Function.update_of_ne hne, store_of_not_mem hright]
      · apply (ihRight (left.store nodes (some p)) (some p) hrightNodup).frame
        intro q hq
        have hne : q ≠ p := fun heq => hpRight (heq ▸ hq)
        rw [store, Function.update_of_ne hne]

/-- Read the tree below a pointer, following at most `fuel` levels. -/
def load (nodes : Nodes β) : ℕ → Option Ptr → Option (RbTree (Ptr × β))
  | _, none => some .nil
  | 0, some _ => none
  | fuel + 1, some p =>
      (nodes p).bind fun cell =>
        (load nodes fuel cell.left).bind fun left =>
          (load nodes fuel cell.right).map fun right =>
            .node cell.color left (p, cell.data) right

theorem Linked.eq_of_load {nodes : Nodes β} {parent top : Option Ptr}
    {tree loaded : RbTree (Ptr × β)} (hlinked : Linked nodes parent top tree)
    {fuel : ℕ} (hload : load nodes fuel top = some loaded) : loaded = tree := by
  induction hlinked generalizing fuel loaded with
  | nil =>
      unfold load at hload
      simpa using hload.symm
  | node hcell _ _ ihLeft ihRight =>
      cases fuel with
      | zero => simp [load] at hload
      | succ fuel =>
          simp only [load, hcell, Option.bind_some, Option.bind_eq_some_iff,
            Option.map_eq_some_iff] at hload
          obtain ⟨left, hleft, right, hright, rfl⟩ := hload
          rw [ihLeft hleft, ihRight hright]

/-- Fuel enough for the tree is found. -/
theorem Linked.exists_load {nodes : Nodes β} {parent top : Option Ptr}
    {tree : RbTree (Ptr × β)} (hlinked : Linked nodes parent top tree) :
    ∃ bound, ∀ fuel, bound ≤ fuel → load nodes fuel top = some tree := by
  induction hlinked with
  | nil => exact ⟨0, fun fuel _ => by unfold load; rfl⟩
  | node hcell _ _ ihLeft ihRight =>
      obtain ⟨left, hleft⟩ := ihLeft
      obtain ⟨right, hright⟩ := ihRight
      refine ⟨max left right + 1, fun fuel hfuel => ?_⟩
      obtain ⟨fuel, rfl⟩ : ∃ less, fuel = less + 1 := ⟨fuel - 1, by omega⟩
      simp [load, hcell, hleft fuel (by omega), hright fuel (by omega)]

/-! ## Searching record by record -/

inductive Seeks (nodes : Nodes β) (steer : β → Ordering) :
    Option Ptr → Option β → Prop where
  | fallOff : Seeks nodes steer none none
  | left {p : Ptr} {cell : LinkedNode β} {result : Option β} :
      nodes p = some cell → steer cell.data = .lt →
        Seeks nodes steer cell.left result → Seeks nodes steer (some p) result
  | right {p : Ptr} {cell : LinkedNode β} {result : Option β} :
      nodes p = some cell → steer cell.data = .gt →
        Seeks nodes steer cell.right result → Seeks nodes steer (some p) result
  | stop {p : Ptr} {cell : LinkedNode β} :
      nodes p = some cell → steer cell.data = .eq →
        Seeks nodes steer (some p) (some cell.data)

theorem Linked.seeks {nodes : Nodes β} {parent top : Option Ptr}
    {tree : RbTree (Ptr × β)} (hlinked : Linked nodes parent top tree)
    (steer : β → Ordering) :
    Seeks nodes steer top ((tree.map Prod.snd).descend steer).data? := by
  induction hlinked with
  | nil => exact .fallOff
  | @node parent left right p data color leftTree rightTree hcell _ _ ihLeft
      ihRight =>
      cases hsteer : steer data with
      | lt =>
          simp only [RbTree.map_node, RbTree.descend, hsteer, Descent.data?_under]
          exact .left hcell hsteer ihLeft
      | eq =>
          simp only [RbTree.map_node, RbTree.descend, hsteer]
          exact .stop hcell hsteer
      | gt =>
          simp only [RbTree.map_node, RbTree.descend, hsteer, Descent.data?_under]
          exact .right hcell hsteer ihRight

/-- What a search has still to do after one record, when it was planned on a
part of memory. -/
theorem Seeks.next {nodes : Nodes β} {pointers : List Ptr} {steer : β → Ordering}
    {p : Ptr} {result : Option β}
    (hseeks : Seeks (SteeredTree.restrict nodes pointers) steer (some p) result)
    {cell : LinkedNode β} (hcell : nodes p = some cell) :
    match steer cell.data with
    | .lt => Seeks (SteeredTree.restrict nodes pointers) steer cell.left result
    | .gt => Seeks (SteeredTree.restrict nodes pointers) steer cell.right result
    | .eq => result = some cell.data := by
  cases hseeks with
  | left hread hsteer hrest =>
      obtain rfl := Option.some.inj ((eq_of_restrict hread).symm.trans hcell)
      rw [hsteer]
      exact hrest
  | right hread hsteer hrest =>
      obtain rfl := Option.some.inj ((eq_of_restrict hread).symm.trans hcell)
      rw [hsteer]
      exact hrest
  | stop hread hsteer =>
      obtain rfl := Option.some.inj ((eq_of_restrict hread).symm.trans hcell)
      rw [hsteer]

theorem Seeks.result_none {nodes : Nodes β} {steer : β → Ordering}
    {result : Option β} (hseeks : Seeks nodes steer none result) : result = none := by
  cases hseeks
  rfl

/-- How many reads a search from here needs to end. -/
inductive SearchEnds (nodes : Nodes β) (steer : β → Ordering) : Option Ptr → ℕ → Prop where
  | vacant : SearchEnds nodes steer none 1
  | stop {p : Ptr} {cell : LinkedNode β} : nodes p = some cell → steer cell.data = .eq →
      SearchEnds nodes steer (some p) 1
  | left {p : Ptr} {cell : LinkedNode β} {reads : ℕ} :
      nodes p = some cell → steer cell.data = .lt → SearchEnds nodes steer cell.left reads →
        SearchEnds nodes steer (some p) (reads + 1)
  | right {p : Ptr} {cell : LinkedNode β} {reads : ℕ} :
      nodes p = some cell → steer cell.data = .gt → SearchEnds nodes steer cell.right reads →
        SearchEnds nodes steer (some p) (reads + 1)

theorem SearchEnds.pos {nodes : Nodes β} {steer : β → Ordering} {top : Option Ptr} {reads : ℕ}
    (hends : SearchEnds nodes steer top reads) : 0 < reads := by
  cases hends <;> omega

/-- On a tree they are as many as the turns that the walk takes, and one. -/
theorem Linked.searchEnds {nodes : Nodes β} {parent top : Option Ptr}
    {tree : RbTree (Ptr × β)} (hlinked : Linked nodes parent top tree) (steer : β → Ordering) :
    SearchEnds nodes steer top (((tree.map Prod.snd).descend steer).place.length + 1) := by
  induction hlinked with
  | nil => exact .vacant
  | @node parent left right p data color leftTree rightTree hcell _ _ ihLeft ihRight =>
      cases hsteer : steer data with
      | lt =>
          simp only [RbTree.map_node, RbTree.descend, hsteer, Descent.place_under]
          exact .left hcell hsteer ihLeft
      | eq =>
          simp only [RbTree.map_node, RbTree.descend, hsteer]
          exact .stop hcell hsteer
      | gt =>
          simp only [RbTree.map_node, RbTree.descend, hsteer, Descent.place_under]
          exact .right hcell hsteer ihRight

/-- A search that was planned on a part of memory ends. -/
theorem Seeks.exists_searchEnds {nodes : Nodes β} {pointers : List Ptr} {steer : β → Ordering}
    {top : Option Ptr} {result : Option β}
    (hseeks : Seeks (SteeredTree.restrict nodes pointers) steer top result) :
    ∃ reads, SearchEnds nodes steer top reads := by
  induction hseeks with
  | fallOff => exact ⟨1, .vacant⟩
  | stop hcell hsteer => exact ⟨1, .stop (eq_of_restrict hcell) hsteer⟩
  | left hcell hsteer _ ih =>
      obtain ⟨reads, hends⟩ := ih
      exact ⟨reads + 1, .left (eq_of_restrict hcell) hsteer hends⟩
  | right hcell hsteer _ ih =>
      obtain ⟨reads, hends⟩ := ih
      exact ⟨reads + 1, .right (eq_of_restrict hcell) hsteer hends⟩

theorem SearchEnds.unique {nodes : Nodes β} {steer : β → Ordering} {top : Option Ptr}
    {reads reads' : ℕ} (hends : SearchEnds nodes steer top reads)
    (hends' : SearchEnds nodes steer top reads') : reads = reads' := by
  induction hends generalizing reads' with
  | vacant =>
      cases hends'
      rfl
  | stop hcell hsteer =>
      cases hends' with
      | stop => rfl
      | left hcell' hsteer' _ | right hcell' hsteer' _ =>
          obtain rfl := Option.some.inj (hcell.symm.trans hcell')
          simp [hsteer] at hsteer'
  | left hcell hsteer _ ih =>
      cases hends' with
      | stop hcell' hsteer' | right hcell' hsteer' _ =>
          obtain rfl := Option.some.inj (hcell.symm.trans hcell')
          simp [hsteer] at hsteer'
      | left hcell' _ hrest =>
          obtain rfl := Option.some.inj (hcell.symm.trans hcell')
          rw [ih hrest]
  | right hcell hsteer _ ih =>
      cases hends' with
      | stop hcell' hsteer' | left hcell' hsteer' _ =>
          obtain rfl := Option.some.inj (hcell.symm.trans hcell')
          simp [hsteer] at hsteer'
      | right hcell' _ hrest =>
          obtain rfl := Option.some.inj (hcell.symm.trans hcell')
          rw [ih hrest]

/-- A search reads only the records it was planned on. -/
theorem SearchEnds.transfer {nodes nodes' : Nodes β} {pointers : List Ptr}
    {steer : β → Ordering} {top : Option Ptr} {result : Option β} {reads : ℕ}
    (hends : SearchEnds nodes steer top reads)
    (hseeks : Seeks (SteeredTree.restrict nodes pointers) steer top result)
    (hsame : SteeredTree.restrict nodes' pointers = SteeredTree.restrict nodes pointers) :
    SearchEnds nodes' steer top reads := by
  rw [← hsame] at hseeks
  have hhere : ∀ {p : Ptr} {cell : LinkedNode β}, nodes p = some cell →
      Seeks (SteeredTree.restrict nodes' pointers) steer (some p) result →
        nodes' p = some cell := by
    intro p cell hcell hseeks
    obtain ⟨cell', hcell'⟩ : ∃ cell', SteeredTree.restrict nodes' pointers p = some cell' := by
      cases hseeks with
      | stop hcell' _ => exact ⟨_, hcell'⟩
      | left hcell' _ _ => exact ⟨_, hcell'⟩
      | right hcell' _ _ => exact ⟨_, hcell'⟩
    have hold : nodes p = some cell' := eq_of_restrict (hsame ▸ hcell')
    rw [eq_of_restrict hcell', ← hold, hcell]
  induction hends with
  | vacant => exact .vacant
  | stop hcell hsteer => exact .stop (hhere hcell hseeks) hsteer
  | left hcell hsteer _ ih =>
      have hnext := hseeks.next (hhere hcell hseeks)
      simp only [hsteer] at hnext
      exact .left (hhere hcell hseeks) hsteer (ih hnext)
  | right hcell hsteer _ ih =>
      have hnext := hseeks.next (hhere hcell hseeks)
      simp only [hsteer] at hnext
      exact .right (hhere hcell hseeks) hsteer (ih hnext)

/-! ## Traversing record by record -/

/-- The cursor of an in-order traversal between two reads. -/
inductive Cursor where
  -- Looking for the leftmost record below this one.
  | leftmost (p : Ptr)
  | visit (p : Ptr)
  -- This record is done; looking for its successor.
  | next (p : Ptr)
  -- Everything below this record is done.
  | climb (p : Ptr)
  | finished
  deriving DecidableEq, Repr

def Cursor.first : Option Ptr → Cursor
  | none => .finished
  | some p => .leftmost p

/-- One move: what is visited, if anything, and where the cursor goes.  `none`
means that a pointer led nowhere. -/
def advance (nodes : Nodes β) : Cursor → Option (Option β × Cursor)
  | .leftmost p =>
      (nodes p).map fun cell =>
        match cell.left with
        | some q => (none, .leftmost q)
        | none => (none, .visit p)
  | .visit p => (nodes p).map fun cell => (some cell.data, .next p)
  | .next p =>
      (nodes p).map fun cell =>
        match cell.right with
        | some q => (none, .leftmost q)
        | none => (none, .climb p)
  | .climb p =>
      (nodes p).bind fun cell =>
        match cell.parent with
        | none => some (none, .finished)
        | some q =>
            (nodes q).map fun above =>
              if above.right = some p then (none, .climb q) else (none, .visit q)
  | .finished => none

inductive Traverses (nodes : Nodes β) : Cursor → List β → Prop where
  | finished : Traverses nodes .finished []
  | move {cursor cursor' : Cursor} {rest : List β} :
      advance nodes cursor = some (none, cursor') →
        Traverses nodes cursor' rest → Traverses nodes cursor rest
  | visit {cursor cursor' : Cursor} {data : β} {rest : List β} :
      advance nodes cursor = some (some data, cursor') →
        Traverses nodes cursor' rest → Traverses nodes cursor (data :: rest)

theorem advance_of_restrict {nodes : Nodes β} {pointers : List Ptr}
    {cursor : Cursor} {move : Option β × Cursor}
    (hmove : advance (restrict nodes pointers) cursor = some move) :
    advance nodes cursor = some move := by
  cases cursor with
  | leftmost p =>
      obtain ⟨cell, hcell, hresult⟩ := Option.map_eq_some_iff.mp hmove
      simp [advance, eq_of_restrict hcell, hresult]
  | visit p =>
      obtain ⟨cell, hcell, hresult⟩ := Option.map_eq_some_iff.mp hmove
      simp [advance, eq_of_restrict hcell, hresult]
  | next p =>
      obtain ⟨cell, hcell, hresult⟩ := Option.map_eq_some_iff.mp hmove
      simp [advance, eq_of_restrict hcell, hresult]
  | climb p =>
      obtain ⟨cell, hcell, hresult⟩ := Option.bind_eq_some_iff.mp hmove
      simp only [advance, eq_of_restrict hcell, Option.bind_some]
      cases hparent : cell.parent with
      | none => simpa [hparent] using hresult
      | some q =>
          simp only [hparent] at hresult
          obtain ⟨above, habove, hresult⟩ := Option.map_eq_some_iff.mp hresult
          simp [eq_of_restrict habove, hresult]
  | finished => simp [advance] at hmove

/-- What a traversal has still to visit after one move, when it was planned on a
part of memory. -/
theorem Traverses.next {nodes : Nodes β} {pointers : List Ptr} {cursor cursor' : Cursor}
    {rest : List β} {visited : Option β}
    (htraverses : Traverses (restrict nodes pointers) cursor rest)
    (hmove : advance nodes cursor = some (visited, cursor')) :
    ∃ rest', rest = visited.toList ++ rest' ∧
      Traverses (restrict nodes pointers) cursor' rest' := by
  cases htraverses with
  | finished => simp [advance] at hmove
  | move hplanned hrest =>
      have heq := (advance_of_restrict hplanned).symm.trans hmove
      simp only [Option.some.injEq, Prod.mk.injEq] at heq
      obtain ⟨rfl, rfl⟩ := heq
      exact ⟨rest, rfl, hrest⟩
  | visit hplanned hrest =>
      have heq := (advance_of_restrict hplanned).symm.trans hmove
      simp only [Option.some.injEq, Prod.mk.injEq] at heq
      obtain ⟨rfl, rfl⟩ := heq
      exact ⟨_, rfl, hrest⟩

theorem Traverses.rest_nil {nodes : Nodes β} {rest : List β}
    (htraverses : Traverses nodes .finished rest) : rest = [] := by
  cases htraverses with
  | finished => rfl
  | move hmove _ => simp [advance] at hmove
  | visit hmove _ => simp [advance] at hmove

theorem Linked.cell_of_top {nodes : Nodes β} {parent : Option Ptr} {p : Ptr}
    {tree : RbTree (Ptr × β)} (hlinked : Linked nodes parent (some p) tree) :
    ∃ cell, nodes p = some cell ∧ cell.parent = parent := by
  cases hlinked with
  | node hcell _ _ => exact ⟨_, hcell, rfl⟩

/-- Two subtrees that share no record have different tops. -/
theorem Linked.top_ne {nodes : Nodes β} {parent parent' right : Option Ptr} {p : Ptr}
    {leftTree rightTree : RbTree (Ptr × β)} (hleft : Linked nodes parent (some p) leftTree)
    (hright : Linked nodes parent' right rightTree)
    (hdisjoint : ∀ q ∈ leftTree.pointers, q ∉ rightTree.pointers) : right ≠ some p := by
  rintro rfl
  exact hdisjoint p (RbTree.mem_pointers_of_top hleft.top_eq)
    (RbTree.mem_pointers_of_top hright.top_eq)

/-- Below a record everything is visited in order, then the cursor climbs. -/
theorem Linked.traverses_leftmost {nodes : Nodes β} {parent : Option Ptr}
    {p : Ptr} {tree : RbTree (Ptr × β)}
    (hlinked : Linked nodes parent (some p) tree)
    (hnodup : tree.pointers.Nodup) {rest : List β}
    (hclimb : Traverses nodes (.climb p) rest) :
    Traverses nodes (.leftmost p) ((tree.map Prod.snd).inorder ++ rest) := by
  generalize htop : some p = top at hlinked
  induction hlinked generalizing p rest with
  | nil => simp at htop
  | @node parent left right q data color leftTree rightTree hcell hleft hright
      ihLeft ihRight =>
      obtain rfl : p = q := by simpa using htop
      simp only [RbTree.pointers_node, List.nodup_append, List.nodup_cons,
        List.mem_cons, ne_eq] at hnodup
      obtain ⟨hleftNodup, ⟨_, hrightNodup⟩, hdisjoint⟩ := hnodup
      have hright' : Traverses nodes (.next p)
          ((rightTree.map Prod.snd).inorder ++ rest) := by
        cases right with
        | none =>
            cases hright
            exact .move (by simp [advance, hcell]) hclimb
        | some r =>
            have hdown : advance nodes (.next p) = some (none, .leftmost r) := by
              simp [advance, hcell]
            refine .move hdown ?_
            obtain ⟨cell, hr, hparent⟩ := hright.cell_of_top
            have hup : advance nodes (.climb r) = some (none, .climb p) := by
              simp [advance, hr, hparent, hcell]
            exact ihRight hrightNodup (.move hup hclimb) rfl
      have hvisit : Traverses nodes (.visit p)
          (data :: ((rightTree.map Prod.snd).inorder ++ rest)) :=
        .visit (by simp [advance, hcell]) hright'
      simp only [RbTree.map_node, RbTree.inorder_node, List.append_assoc,
        List.cons_append]
      cases left with
      | none =>
          cases hleft
          exact .move (by simp [advance, hcell]) hvisit
      | some l =>
          have hdown : advance nodes (.leftmost p) = some (none, .leftmost l) := by
            simp [advance, hcell]
          refine .move hdown ?_
          obtain ⟨cell, hl, hparent⟩ := hleft.cell_of_top
          -- the climb stops here
          have hne : right ≠ some l := hleft.top_ne hright
            fun q hq hmem => hdisjoint q hq q (Or.inr hmem) rfl
          have hup : advance nodes (.climb l) = some (none, .visit p) := by
            simp [advance, hl, hparent, hcell, hne]
          exact ihLeft hleftNodup (.move hup hvisit) rfl

theorem Linked.traverses {nodes : Nodes β} {top : Option Ptr}
    {tree : RbTree (Ptr × β)} (hlinked : Linked nodes none top tree)
    (hnodup : tree.pointers.Nodup) :
    Traverses nodes (Cursor.first top) (tree.map Prod.snd).inorder := by
  cases top with
  | none =>
      cases hlinked
      exact .finished
  | some p =>
      obtain ⟨cell, hp, hparent⟩ := hlinked.cell_of_top
      have hclimb : Traverses nodes (.climb p) [] :=
        .move (by simp [advance, hp, hparent]) .finished
      have htraverses := hlinked.traverses_leftmost hnodup hclimb
      rwa [List.append_nil] at htraverses

/-- How many moves a cursor has still to make. -/
inductive WalkEnds (nodes : Nodes β) : Cursor → ℕ → Prop where
  | finished : WalkEnds nodes .finished 0
  | move {cursor cursor' : Cursor} {visited : Option β} {moves : ℕ} :
      advance nodes cursor = some (visited, cursor') → WalkEnds nodes cursor' moves →
        WalkEnds nodes cursor (moves + 1)

/-- Every record is met four times: on the way down, when it is visited, and before
and after what is on its right. -/
theorem Linked.walkEnds_leftmost {nodes : Nodes β} {parent : Option Ptr} {p : Ptr}
    {tree : RbTree (Ptr × β)} (hlinked : Linked nodes parent (some p) tree)
    (hnodup : tree.pointers.Nodup) {moves : ℕ} (hclimb : WalkEnds nodes (.climb p) (moves + 1)) :
    WalkEnds nodes (.leftmost p) (4 * tree.inorder.length + moves) := by
  generalize htop : some p = top at hlinked
  induction hlinked generalizing p moves with
  | nil => simp at htop
  | @node parent left right q data color leftTree rightTree hcell hleft hright ihLeft ihRight =>
      obtain rfl : p = q := by simpa using htop
      simp only [RbTree.pointers_node, List.nodup_append, List.nodup_cons,
        List.mem_cons, ne_eq] at hnodup
      obtain ⟨hleftNodup, ⟨_, hrightNodup⟩, hdisjoint⟩ := hnodup
      have hright' : WalkEnds nodes (.next p) (4 * rightTree.inorder.length + moves + 2) := by
        cases right with
        | none =>
            cases hright
            have hdone : advance nodes (.next p) = some (none, .climb p) := by
              simp [advance, hcell]
            simpa using WalkEnds.move hdone hclimb
        | some r =>
            have hdown : advance nodes (.next p) = some (none, .leftmost r) := by
              simp [advance, hcell]
            obtain ⟨cell, hr, hparent⟩ := hright.cell_of_top
            have hup : advance nodes (.climb r) = some (none, .climb p) := by
              simp [advance, hr, hparent, hcell]
            exact .move hdown (ihRight hrightNodup (.move hup hclimb) rfl)
      have hdata : advance nodes (.visit p) = some (some data, .next p) := by
        simp [advance, hcell]
      have hvisit := WalkEnds.move hdata hright'
      have hlength : 4 * (RbTree.node color leftTree (p, data) rightTree).inorder.length + moves =
          4 * leftTree.inorder.length + (4 * rightTree.inorder.length + moves + 3) + 1 := by
        rw [RbTree.inorder_node, List.length_append, List.length_cons]
        omega
      rw [hlength]
      cases left with
      | none =>
          cases hleft
          have hhere : advance nodes (.leftmost p) = some (none, .visit p) := by
            simp [advance, hcell]
          simpa using WalkEnds.move hhere hvisit
      | some l =>
          have hdown : advance nodes (.leftmost p) = some (none, .leftmost l) := by
            simp [advance, hcell]
          obtain ⟨cell, hl, hparent⟩ := hleft.cell_of_top
          have hne : right ≠ some l := hleft.top_ne hright
            fun q hq hmem => hdisjoint q hq q (Or.inr hmem) rfl
          have hup : advance nodes (.climb l) = some (none, .visit p) := by
            simp [advance, hl, hparent, hcell, hne]
          exact .move hdown (ihLeft hleftNodup (.move hup hvisit) rfl)

theorem Linked.walkEnds {nodes : Nodes β} {top : Option Ptr} {tree : RbTree (Ptr × β)}
    (hlinked : Linked nodes none top tree) (hnodup : tree.pointers.Nodup) :
    WalkEnds nodes (Cursor.first top) (4 * tree.inorder.length) := by
  cases top with
  | none =>
      cases hlinked
      exact .finished
  | some p =>
      obtain ⟨cell, hp, hparent⟩ := hlinked.cell_of_top
      have hup : advance nodes (.climb p) = some (none, .finished) := by
        simp [advance, hp, hparent]
      exact hlinked.walkEnds_leftmost hnodup (.move hup .finished)

theorem WalkEnds.next {nodes : Nodes β} {cursor cursor' : Cursor} {visited : Option β}
    {moves : ℕ} (hends : WalkEnds nodes cursor moves)
    (hmove : advance nodes cursor = some (visited, cursor')) :
    ∃ moves', WalkEnds nodes cursor' moves' ∧ moves = moves' + 1 := by
  cases hends with
  | finished => simp [advance] at hmove
  | move hmove' hrest =>
      obtain ⟨_, rfl⟩ := Prod.mk.inj (Option.some.inj (hmove'.symm.trans hmove))
      exact ⟨_, hrest, rfl⟩

theorem WalkEnds.unique {nodes : Nodes β} {cursor : Cursor} {moves moves' : ℕ}
    (hends : WalkEnds nodes cursor moves) (hends' : WalkEnds nodes cursor moves') :
    moves = moves' := by
  induction hends generalizing moves' with
  | finished =>
      cases hends' with
      | finished => rfl
      | move hmove _ => simp [advance] at hmove
  | move hmove _ ih =>
      obtain ⟨rest, hrest, rfl⟩ := hends'.next hmove
      rw [ih hrest]

/-- A walk reads only the records it was planned on. -/
theorem WalkEnds.transfer {nodes nodes' : Nodes β} {pointers : List Ptr} {cursor : Cursor}
    {rest : List β} {moves : ℕ} (hends : WalkEnds nodes cursor moves)
    (htraverses : Traverses (restrict nodes pointers) cursor rest)
    (hsame : restrict nodes' pointers = restrict nodes pointers) :
    WalkEnds nodes' cursor moves := by
  induction hends generalizing rest with
  | finished => exact .finished
  | @move cursor cursor' visited moves hmove _ ih =>
      obtain ⟨rest', _, hrest⟩ := htraverses.next hmove
      have hplanned : ∃ move, advance (restrict nodes pointers) cursor = some move := by
        cases htraverses with
        | finished => simp [advance] at hmove
        | move hplanned _ => exact ⟨_, hplanned⟩
        | visit hplanned _ => exact ⟨_, hplanned⟩
      obtain ⟨move, hplanned⟩ := hplanned
      obtain rfl := Option.some.inj ((advance_of_restrict hplanned).symm.trans hmove)
      rw [← hsame] at hplanned
      exact .move (advance_of_restrict hplanned) (ih hrest)

end SteeredTree

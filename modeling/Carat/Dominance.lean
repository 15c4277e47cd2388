import Mathlib.Logic.Relation
import Mathlib.Tactic

/-!
# Dominance in a flow graph

One node dominates another when every walk from the entry to the second visits
the first.  A dominator other than the node itself is met earlier on every walk,
so a shortest walk to it is shorter.

Places are numbered within a node, and a place comes before another when it has
been passed whenever the other is reached.  From a node that can be reached,
going back to earlier and earlier places comes to an end.
-/

namespace Dominance

universe u

variable {α : Type u}

/-- A walk from the entry with the nodes it has visited, the latest first. -/
inductive Walk (edge : α → α → Prop) (entry : α) : List α → α → Prop where
  | here : Walk edge entry [entry] entry
  | next {visited : List α} {a b : α} :
      Walk edge entry visited a → edge a b → Walk edge entry (b :: visited) b

def Reachable (edge : α → α → Prop) (entry b : α) : Prop :=
  ∃ visited, Walk edge entry visited b

def Dominates (edge : α → α → Prop) (entry d b : α) : Prop :=
  ∀ visited, Walk edge entry visited b → d ∈ visited

/-- The first place has been passed whenever the second is reached. -/
def Before (edge : α → α → Prop) (entry : α) (p q : α × ℕ) : Prop :=
  p.1 = q.1 ∧ p.2 < q.2 ∨ p.1 ≠ q.1 ∧ Dominates edge entry p.1 q.1

variable {edge : α → α → Prop} {entry : α}

theorem Walk.entry_mem {visited : List α} {b : α} (hwalk : Walk edge entry visited b) :
    entry ∈ visited := by
  induction hwalk with
  | here => exact List.mem_singleton_self entry
  | next _ _ ih => exact List.mem_cons_of_mem _ ih

/-- A walk has come through each of its nodes on the way. -/
theorem Walk.shorter {visited : List α} {d b : α} (hwalk : Walk edge entry visited b)
    (hd : d ∈ visited) :
    d = b ∨ ∃ earlier, Walk edge entry earlier d ∧ earlier.length < visited.length := by
  induction hwalk with
  | here => exact Or.inl (List.mem_singleton.mp hd)
  | @next visited a b hwalk hedge ih =>
      rcases List.mem_cons.mp hd with rfl | hd
      · exact Or.inl rfl
      · right
        rcases ih hd with rfl | ⟨earlier, hearlier, hlength⟩
        · exact ⟨visited, hwalk, by simp⟩
        · exact ⟨earlier, hearlier, by rw [List.length_cons]; omega⟩

theorem entry_dominates (b : α) : Dominates edge entry entry b :=
  fun _ hwalk => hwalk.entry_mem

theorem Dominates.reachable {d b : α} (hdominates : Dominates edge entry d b)
    (hreach : Reachable edge entry b) : Reachable edge entry d := by
  obtain ⟨visited, hwalk⟩ := hreach
  rcases hwalk.shorter (hdominates visited hwalk) with rfl | ⟨earlier, hearlier, _⟩
  · exact ⟨visited, hwalk⟩
  · exact ⟨earlier, hearlier⟩

theorem Before.reachable {p q : α × ℕ} (hbefore : Before edge entry p q)
    (hreach : Reachable edge entry q.1) : Reachable edge entry p.1 := by
  rcases hbefore with ⟨hsame, _⟩ | ⟨_, hdominates⟩
  · rwa [hsame]
  · exact hdominates.reachable hreach

theorem acc_before_of_walk {visited : List α} {b : α} (hwalk : Walk edge entry visited b)
    (i : ℕ) : Acc (Before edge entry) (b, i) := by
  induction hlength : visited.length using Nat.strong_induction_on
    generalizing visited b i with
  | h length ihLength =>
      induction i using Nat.strong_induction_on with
      | h i ihIndex =>
          refine Acc.intro _ ?_
          rintro ⟨a, j⟩ (⟨rfl, hlt⟩ | ⟨hne, hdominates⟩)
          · exact ihIndex j hlt
          · obtain ⟨earlier, hearlier, hshorter⟩ :=
              (hwalk.shorter (hdominates visited hwalk)).resolve_left hne
            exact ihLength earlier.length (hlength ▸ hshorter) hearlier j rfl

theorem acc_before {b : α} (hreach : Reachable edge entry b) (i : ℕ) :
    Acc (Before edge entry) (b, i) := by
  obtain ⟨visited, hwalk⟩ := hreach
  exact acc_before_of_walk hwalk i

/-- A set which holds the entry and is closed under the edges holds every node that
can be reached. -/
theorem Reachable.mem_of_closed {b : α} (hreach : Reachable edge entry b) (Inside : α → Prop)
    (hentry : Inside entry) (hclosed : ∀ a b, Inside a → edge a b → Inside b) : Inside b := by
  obtain ⟨visited, hwalk⟩ := hreach
  induction hwalk with
  | here => exact hentry
  | next _ hedge ih => exact hclosed _ _ ih hedge

end Dominance

import Mathlib.Logic.Relation
import Mathlib.Order.WellFoundedSet
import Mathlib.Tactic

/-!
# Reaching around in a relation

Walks along a relation: a start that reaches finitely many things and no cycle is
accessible, so anything can be proved by following the relation from there, and an
accessible start reaches no cycle; adding edges into one target closes a cycle
through it exactly when a tail of an added edge can be reached.
-/

namespace Reachability

open Relation

universe u

variable {α : Type u} {edge : α → α → Prop}

theorem acc_of_no_cycle {start : α} (hfinite : {a | ReflTransGen edge start a}.Finite)
    (hacyclic : ∀ a, ReflTransGen edge start a → ¬TransGen edge a a) :
    Acc (fun b a => edge a b) start := by
  let below : α → α → Prop := fun b a => ReflTransGen edge start a ∧ TransGen edge a b
  have hstrict : IsStrictOrder α below :=
    { irrefl := fun a hloop => hacyclic a hloop.1 hloop.2
      trans := fun _ _ _ hcb hba => ⟨hba.1, hba.2.trans hcb.2⟩ }
  have hwf : {a | ReflTransGen edge start a}.WellFoundedOn below := hfinite.wellFoundedOn
  have hstart : start ∈ {a | ReflTransGen edge start a} := .refl
  apply hwf.induction hstart
  intro a hreach ih
  refine Acc.intro a fun b hedge => ?_
  exact ih b (hreach.tail hedge) ⟨hreach, .single hedge⟩

theorem not_cycle_of_acc {start a : α} (hacc : Acc (fun b a => edge a b) start)
    (hreach : ReflTransGen edge start a) : ¬TransGen edge a a := by
  have haccReached : Acc (fun b a => edge a b) a := by
    induction hreach with
    | refl => exact hacc
    | tail _ hedge ih => exact ih.inv hedge
  induction haccReached with
  | intro a _ ih =>
      intro hcycle
      obtain ⟨b, hedge, hback⟩ := TransGen.head'_iff.mp hcycle
      exact ih b hedge (hreach.tail hedge) (.tail' hback hedge)

/-- Edges added towards `target`, from wherever `Added` says. -/
theorem transGen_self_iff_of_added {edge' : α → α → Prop} {target : α} {Added : α → Prop}
    (hkept : ∀ a b, edge a b → edge' a b) (hadded : ∀ a, Added a → edge' a target)
    (honly : ∀ a b, edge' a b → edge a b ∨ Added a ∧ b = target) :
    TransGen edge' target target ↔
      TransGen edge target target ∨ ∃ a, ReflTransGen edge target a ∧ Added a := by
  have hkeptWalk : ∀ {a b}, ReflTransGen edge a b → ReflTransGen edge' a b :=
    fun hwalk => ReflTransGen.mono hkept _ _ hwalk
  constructor
  · intro hcycle
    have hwalk : ∀ a, ReflTransGen edge' target a →
        ReflTransGen edge target a ∨ ∃ a, ReflTransGen edge target a ∧ Added a := by
      intro a hreach
      induction hreach with
      | refl => exact Or.inl .refl
      | tail _ hedge ih =>
          rcases ih with hbefore | hfound
          · rcases honly _ _ hedge with hold | ⟨hnew, _⟩
            · exact Or.inl (hbefore.tail hold)
            · exact Or.inr ⟨_, hbefore, hnew⟩
          · exact Or.inr hfound
    obtain ⟨last, hreach, hedge⟩ := TransGen.tail'_iff.mp hcycle
    rcases hwalk last hreach with hbefore | hfound
    · rcases honly _ _ hedge with hold | ⟨hnew, _⟩
      · exact Or.inl (.tail' hbefore hold)
      · exact Or.inr ⟨last, hbefore, hnew⟩
    · exact Or.inr hfound
  · rintro (hcycle | ⟨a, hreach, hnew⟩)
    · exact TransGen.mono hkept _ _ hcycle
    · exact .tail' (hkeptWalk hreach) (hadded a hnew)

/-- A walk cannot leave a set that is closed under the edges. -/
theorem inside_of_closed (Inside : α → Prop) (hclosed : ∀ a b, Inside a → edge a b → Inside b)
    {start target : α} (hstart : Inside start) (hwalk : ReflTransGen edge start target) :
    Inside target := by
  induction hwalk with
  | refl => exact hstart
  | tail _ hedge ih => exact hclosed _ _ ih hedge

theorem not_transGen_of_closed (Inside : α → Prop) {start target : α}
    (hstart : ∀ b, edge start b → Inside b)
    (hclosed : ∀ a b, Inside a → edge a b → Inside b) (htarget : ¬Inside target) :
    ¬TransGen edge start target := by
  intro hwalk
  obtain ⟨first, hfirst, hrest⟩ := TransGen.head'_iff.mp hwalk
  exact htarget (inside_of_closed Inside hclosed (hstart first hfirst) hrest)

end Reachability

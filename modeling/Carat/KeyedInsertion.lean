import Carat.FirstByKey
import Carat.IntervalSearch
import Carat.SteeredInsertion

/-!
# Insertion by key

Elements are inserted one after the other, each steered by its own key.  The tree
stays ordered by key, an element is refused when its key is taken, and a whole
build holds, of the elements with one key, the first.
-/

namespace SteeredTree

open FirstByKey

universe u

variable {α : Type} {κ : Type u} [LinearOrder κ]

theorem insertAll_concat (kernel : KernelRbtree) (steer : α → α → Ordering) (tree : RbTree α)
    (elements : List α) (last : α) :
    insertAll kernel steer tree (elements ++ [last]) =
      (insertBy kernel (steer last) last (insertAll kernel steer tree elements)).getD
        (insertAll kernel steer tree elements) := by
  rw [insertAll, List.foldl_append]
  rfl

section Build

variable {kernel : KernelRbtree} (hkernel : kernel.KeepsOrder)

include hkernel

theorem insertAll_keyed (key : α → κ) (elements : List α) :
    KeyOrdered key
        (insertAll kernel (fun fresh => keySteer key (key fresh)) .nil elements).inorder ∧
      (insertAll kernel (fun fresh => keySteer key (key fresh)) .nil elements).inorder.Perm
        (firstByKey key elements) := by
  induction elements using List.reverseRecOn with
  | nil => exact ⟨List.Pairwise.nil, List.Perm.refl _⟩
  | append_singleton elements last ih =>
      obtain ⟨hordered, hperm⟩ := ih
      rw [insertAll_concat, firstByKey_concat]
      rcases insertBy_cases hkernel (hordered.sharp (key last)) last with
        ⟨hnone, old, hold, hturn⟩ |
          ⟨grown, before, after, hsome, hinorder, hbefore, hafter, hgrown⟩
      · have htaken : ∃ x ∈ elements, key x = key last :=
          ⟨old, (firstByKey_sublist elements).subset (hperm.mem_iff.mp hold),
            (keySteer_eq_eq key _ old).mp hturn⟩
        rw [hnone, if_pos htaken]
        exact ⟨hordered, hperm⟩
      · have hlower : ∀ x ∈ before, key x < key last :=
          fun x hx => (keySteer_eq_gt key _ x).mp (hbefore x hx)
        have hhigher : ∀ x ∈ after, key last < key x :=
          fun x hx => (keySteer_eq_lt key _ x).mp (hafter x hx)
        have hfree : ¬∃ x ∈ elements, key x = key last := by
          rintro ⟨x, hx, hkey⟩
          obtain ⟨first, hfirst, hsame⟩ := exists_key_firstByKey key hx
          rw [← hperm.mem_iff, hinorder, List.mem_append] at hfirst
          rcases hfirst with hfirst | hfirst
          · exact (hlower first hfirst).ne (hsame.trans hkey)
          · exact (hhigher first hfirst).ne' (hsame.trans hkey)
        rw [hsome, Option.getD_some, if_neg hfree, hgrown]
        rw [hinorder] at hordered hperm
        constructor
        · exact keyOrdered_insert hordered hlower hhigher
        · calc
            (before ++ last :: after).Perm (last :: (before ++ after)) := List.perm_middle
            _ |>.Perm (last :: firstByKey key elements) := hperm.cons last
            _ |>.Perm (firstByKey key elements ++ [last]) :=
              (List.perm_append_singleton last _).symm

end Build

end SteeredTree

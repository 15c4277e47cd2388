import Mathlib.Data.List.Count
import Mathlib.Data.List.Sort
import Mathlib.Tactic

/-!
# Named counters

A map from keys to machine words, kept by rising key, in which a key appears when
it is first counted.  What a sequence of increments leaves behind is how often each
key occurs in it.
-/

namespace NamedCounters

universe u

variable {κ : Type u} [LinearOrder κ] {w : ℕ}

def bumpEntries (key : κ) : List (κ × BitVec w) → List (κ × BitVec w)
  | [] => [(key, 1)]
  | (k, n) :: rest =>
      match compare key k with
      | .lt => (key, 1) :: (k, n) :: rest
      | .eq => (k, n + 1) :: rest
      | .gt => (k, n) :: bumpEntries key rest

theorem mem_keys_bumpEntries {key k : κ} {entries : List (κ × BitVec w)} :
    k ∈ (bumpEntries key entries).map Prod.fst ↔ k = key ∨ k ∈ entries.map Prod.fst := by
  induction entries with
  | nil => simp [bumpEntries]
  | cons entry rest ih =>
      obtain ⟨k', n⟩ := entry
      cases hcompare : compare key k' with
      | lt => simp [bumpEntries, hcompare]
      | eq =>
          obtain rfl := compare_eq_iff_eq.mp hcompare
          simp [bumpEntries]
      | gt =>
          simp only [bumpEntries, hcompare, List.map_cons, List.mem_cons, ih]
          tauto

theorem ordered_bumpEntries (key : κ) {entries : List (κ × BitVec w)}
    (hordered : (entries.map Prod.fst).Pairwise (· < ·)) :
    ((bumpEntries key entries).map Prod.fst).Pairwise (· < ·) := by
  induction entries with
  | nil => simp [bumpEntries]
  | cons entry rest ih =>
      obtain ⟨k, n⟩ := entry
      obtain ⟨hfirst, hrest⟩ := List.pairwise_cons.mp hordered
      cases hcompare : compare key k with
      | lt =>
          have hlt : key < k := compare_lt_iff_lt.mp hcompare
          simp only [bumpEntries, hcompare, List.map_cons]
          refine List.pairwise_cons.mpr ⟨?_, hordered⟩
          exact List.forall_mem_cons.mpr ⟨hlt, fun k' hk' => hlt.trans (hfirst k' hk')⟩
      | eq => simpa [bumpEntries, hcompare] using hordered
      | gt =>
          have hlt : k < key := compare_gt_iff_gt.mp hcompare
          simp only [bumpEntries, hcompare, List.map_cons]
          refine List.pairwise_cons.mpr ⟨fun k' hk' => ?_, ih hrest⟩
          rcases mem_keys_bumpEntries.mp hk' with rfl | hk'
          · exact hlt
          · exact hfirst k' hk'

theorem lookup_eq_none_of_lt {key : κ} {entries : List (κ × BitVec w)}
    (hlt : ∀ k ∈ entries.map Prod.fst, key < k) : entries.lookup key = none := by
  rw [List.lookup_eq_none_iff]
  intro entry hentry
  have hne := (hlt entry.1 (List.mem_map_of_mem hentry)).ne
  simpa using hne

theorem lookup_cons_eq (key k : κ) (n : BitVec w) (rest : List (κ × BitVec w)) :
    ((k, n) :: rest).lookup key = if key = k then some n else rest.lookup key := by
  by_cases hk : key = k
  · simp [hk]
  · have hbeq : (key == k) = false := beq_eq_false_iff_ne.mpr hk
    simp [List.lookup_cons, hbeq, hk]

theorem lookup_bumpEntries (key k : κ) {entries : List (κ × BitVec w)}
    (hordered : (entries.map Prod.fst).Pairwise (· < ·)) :
    (bumpEntries key entries).lookup k =
      if k = key then some ((entries.lookup k).getD 0 + 1) else entries.lookup k := by
  induction entries with
  | nil => simp [bumpEntries, lookup_cons_eq]
  | cons entry rest ih =>
      obtain ⟨k', n⟩ := entry
      obtain ⟨hfirst, hrest⟩ := List.pairwise_cons.mp hordered
      cases hcompare : compare key k' with
      | lt =>
          have hlt : key < k' := compare_lt_iff_lt.mp hcompare
          have hnone : ((k', n) :: rest).lookup key = none :=
            lookup_eq_none_of_lt (List.forall_mem_cons.mpr
              ⟨hlt, fun k hk => hlt.trans (hfirst k hk)⟩)
          simp only [bumpEntries, hcompare]
          rw [lookup_cons_eq k key]
          by_cases hk : k = key
          · simp [hk, hnone]
          · simp [hk]
      | eq =>
          obtain rfl := compare_eq_iff_eq.mp hcompare
          by_cases hk : k = key <;> simp [bumpEntries, lookup_cons_eq, hk]
      | gt =>
          have hlt : k' < key := compare_gt_iff_gt.mp hcompare
          simp only [bumpEntries, hcompare, lookup_cons_eq, ih hrest]
          by_cases hk : k = k'
          · simp [hk, hlt.ne]
          · simp [hk]

/-- The keys that occur, and how often each has been counted modulo `2 ^ w`. -/
@[ext] structure Counters (κ : Type u) [LinearOrder κ] (w : ℕ) where
  entries : List (κ × BitVec w)
  ordered : (entries.map Prod.fst).Pairwise (· < ·)

namespace Counters

def empty : Counters κ w := ⟨[], List.Pairwise.nil⟩

/-- `counters[key]++`. -/
def bump (counters : Counters κ w) (key : κ) : Counters κ w :=
  ⟨bumpEntries key counters.entries, ordered_bumpEntries key counters.ordered⟩

def bumpAll (counters : Counters κ w) (keys : List κ) : Counters κ w := keys.foldl bump counters

def lookup (counters : Counters κ w) (key : κ) : Option (BitVec w) :=
  counters.entries.lookup key

def count (counters : Counters κ w) (key : κ) : BitVec w := (counters.lookup key).getD 0

@[simp] theorem lookup_empty (key : κ) : (empty : Counters κ w).lookup key = none := rfl

theorem lookup_bump (counters : Counters κ w) (key k : κ) :
    (counters.bump key).lookup k =
      if k = key then some (counters.count k + 1) else counters.lookup k :=
  lookup_bumpEntries key k counters.ordered

@[simp] theorem bumpAll_nil (counters : Counters κ w) : counters.bumpAll [] = counters := rfl

@[simp] theorem bumpAll_cons (counters : Counters κ w) (key : κ) (keys : List κ) :
    counters.bumpAll (key :: keys) = (counters.bump key).bumpAll keys := rfl

theorem bumpAll_append (counters : Counters κ w) (first second : List κ) :
    counters.bumpAll (first ++ second) = (counters.bumpAll first).bumpAll second :=
  List.foldl_append

theorem lookup_bumpAll (counters : Counters κ w) (keys : List κ) (key : κ) :
    (counters.bumpAll keys).lookup key =
      if key ∈ keys then some (counters.count key + BitVec.ofNat w (keys.count key))
      else counters.lookup key := by
  induction keys generalizing counters with
  | nil => simp
  | cons k rest ih =>
      rw [bumpAll_cons, ih]
      by_cases hk : key = k
      · subst key
        by_cases hrest : k ∈ rest
        · simp [hrest, count, lookup_bump, BitVec.ofNat_add, BitVec.add_assoc, BitVec.add_comm]
        · simp [hrest, lookup_bump, List.count_eq_zero.mpr hrest]
      · have hcount : (counters.bump k).count key = counters.count key := by
          simp [count, lookup_bump, hk]
        by_cases hrest : key ∈ rest
        · simp [hrest, hcount, Ne.symm hk]
        · simp [hrest, hk, lookup_bump]

theorem count_bumpAll_empty (keys : List κ) (key : κ) :
    ((empty : Counters κ w).bumpAll keys).count key = BitVec.ofNat w (keys.count key) := by
  by_cases hkey : key ∈ keys
  · simp [count, lookup_bumpAll, hkey]
  · simp [count, lookup_bumpAll, hkey, List.count_eq_zero.mpr hkey]

end Counters

end NamedCounters

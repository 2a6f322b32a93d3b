import Mathlib.Data.Finset.Card
import Mathlib.Data.Set.Basic
import MemFlow.IdSet.Listing

/-!
# Order and size of sets

Inclusion of sets, the members of a fold over sets, and how the size of a set
grows with it.
-/

namespace MemFlow.IdSet

/-- The members of a set, as a mathematical set. -/
def members (s : IdSet) : Set Nat := fun v => v ∈ s

@[simp] theorem mem_members_iff {s : IdSet} {v : Nat} : v ∈ s.members ↔ v ∈ s := Iff.rfl

theorem members_subset {s t : IdSet} : s.members ⊆ t.members ↔ s ⊆ t := Iff.rfl

theorem eq_of_subset {s t : IdSet} (h : s ⊆ t) (h' : t ⊆ s) : s = t :=
  ext_mem fun v => ⟨h v, h' v⟩

/-! ## Folds -/

theorem mem_foldl_union {α : Type} {f : α → IdSet} {as : List α} {s : IdSet} {v : Nat} :
    v ∈ as.foldl (fun acc a => acc ∪ f a) s ↔ v ∈ s ∨ ∃ a ∈ as, v ∈ f a := by
  induction as generalizing s with
  | nil => simp
  | cons a as ih => simp only [List.foldl_cons, ih, mem_union, List.exists_mem_cons_iff, or_assoc]

theorem mem_foldl_inter {α : Type} {f : α → IdSet} {as : List α} {s : IdSet} {v : Nat} :
    v ∈ as.foldl (fun acc a => acc ∩ f a) s ↔ v ∈ s ∧ ∀ a ∈ as, v ∈ f a := by
  induction as generalizing s with
  | nil => simp
  | cons a as ih => simp only [List.foldl_cons, ih, mem_inter, List.forall_mem_cons, and_assoc]

/-! ## Sizes -/

def finset (s : IdSet) : Finset Nat := s.toList.toFinset

@[simp] theorem mem_finset {s : IdSet} {v : Nat} : v ∈ s.finset ↔ v ∈ s := by
  simp [finset]

theorem card_finset (s : IdSet) : s.finset.card = s.size := by
  have nodup : s.toList.Nodup := s.pairwise_toList.imp Nat.ne_of_lt
  rw [finset, List.toFinset_card_of_nodup nodup, length_toList]

theorem size_le {s t : IdSet} (h : s ⊆ t) : s.size ≤ t.size := by
  rw [← card_finset, ← card_finset]
  apply Finset.card_le_card
  intro v hv
  exact mem_finset.mpr (h v (mem_finset.mp hv))

theorem size_lt {s t : IdSet} (h : s ⊆ t) (hne : s ≠ t) : s.size < t.size := by
  rw [← card_finset, ← card_finset]
  apply Finset.card_lt_card
  refine Finset.ssubset_iff_subset_ne.mpr ⟨?_, ?_⟩
  · intro v hv
    exact mem_finset.mpr (h v (mem_finset.mp hv))
  · intro he
    apply hne
    apply ext_mem
    intro v
    rw [← mem_finset, he, mem_finset]

end MemFlow.IdSet

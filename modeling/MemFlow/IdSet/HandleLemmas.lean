import MemFlow.IdSet.Handle
import MemFlow.IdSet.Lemmas

/-!
# Members behind handles

Every operation on a handle leaves the members that the operation on sets gives and answers
whether they differ from those before, whichever of its shortcuts it takes. The shortcuts for
handles on one storage need that these hold one set; all else is told from the members.
-/

namespace MemFlow.Handle

/-- An operation on `h` leaves the members of `s` and answers whether they are new. -/
structure Becomes (h : Handle) (s : IdSet) (r : Handle × Bool) : Prop where
  members : r.1.set = s
  changed : r.2 = decide (s ≠ h.set)

variable {h k : Handle} {fresh : Nat} {s : IdSet}

theorem Becomes.unchanged (same : s = h.set) : h.Becomes s (h, false) :=
  ⟨same.symm, by simp [same]⟩

theorem Becomes.replaced {r : Handle} (members : r.set = s) (differs : s ≠ h.set) :
    h.Becomes s (r, true) :=
  ⟨members, by simp [differs]⟩

theorem becomes_replace (s : IdSet) : h.Becomes s (h.replace fresh s) := by
  unfold replace
  split
  · rename_i same
    exact .unchanged same
  · rename_i differs
    exact .replaced rfl differs

theorem insert_eq (v : Nat) :
    h.insert fresh v = if v ∈ h.set then (h, false) else (⟨fresh, h.set.insert v⟩, true) := by
  by_cases old : v ∈ h.set <;> simp [insert, IdSet.insert?_eq, old]

theorem erase_eq (v : Nat) :
    h.erase fresh v = if v ∈ h.set then (⟨fresh, h.set.erase v⟩, true) else (h, false) := by
  by_cases old : v ∈ h.set <;> simp [erase, IdSet.erase?_eq, old]

theorem becomes_insert (v : Nat) : h.Becomes (h.set.insert v) (h.insert fresh v) := by
  rw [insert_eq]
  split
  · rename_i old
    refine .unchanged (IdSet.ext_mem fun u => ?_)
    rw [IdSet.mem_insert]
    exact ⟨fun h => h.elim id fun same => same ▸ old, Or.inl⟩
  · rename_i new
    refine .replaced rfl fun same => new ?_
    rw [← same]
    exact IdSet.mem_insert.mpr (Or.inr rfl)

theorem becomes_erase (v : Nat) : h.Becomes (h.set.erase v) (h.erase fresh v) := by
  rw [erase_eq]
  split
  · rename_i old
    refine .replaced rfl fun same => ?_
    rw [← same] at old
    exact (IdSet.mem_erase.mp old).2 rfl
  · rename_i absent
    refine .unchanged (IdSet.ext_mem fun u => ?_)
    rw [IdSet.mem_erase]
    exact ⟨And.left, fun old => ⟨old, fun same => absent (same ▸ old)⟩⟩

@[simp] theorem set_clear : (h.clear fresh).set = ∅ := by
  unfold clear
  split
  · rename_i empty
    exact IdSet.isEmpty_iff.mp empty
  · rfl

theorem set_insertAll (vs : List Nat) : (h.insertAll fresh vs).set = h.set.insertAll vs := by
  unfold insertAll IdSet.insertAll
  induction vs generalizing h with
  | nil => rfl
  | cons v vs ih => rw [List.foldl_cons, ih, (becomes_insert v).members, List.foldl_cons]

section
variable (shared : h.shares k = true → h.set = k.set)
include shared

theorem becomes_union : h.Becomes (h.set ∪ k.set) (h.union fresh k) := by
  unfold union
  split
  · rename_i nothing
    refine .unchanged (IdSet.ext_mem fun v => ?_)
    rcases Bool.or_eq_true_iff.mp nothing with empty | same
    · simp [IdSet.isEmpty_iff.mp empty]
    · -- One version, one set: this is where the shortcuts need coherence.
      simp [shared same]
  · rename_i something
    simp only [Bool.or_eq_true, not_or, IdSet.isEmpty_iff] at something
    split
    · rename_i empty
      rw [IdSet.isEmpty_iff] at empty
      have all : h.set ∪ k.set = k.set := IdSet.ext_mem fun v => by simp [empty]
      rw [all]
      exact .replaced rfl (by rw [empty]; exact something.1)
    · exact becomes_replace _

theorem becomes_inter : h.Becomes (h.set ∩ k.set) (h.inter fresh k) := by
  unfold inter
  split
  · rename_i nothing
    refine .unchanged (IdSet.ext_mem fun v => ?_)
    rcases Bool.or_eq_true_iff.mp nothing with empty | same
    · simp [IdSet.isEmpty_iff.mp empty]
    · simp [shared same]
  · rename_i something
    simp only [Bool.or_eq_true, not_or, IdSet.isEmpty_iff] at something
    split
    · rename_i empty
      have none : h.set ∩ k.set = ∅ :=
        IdSet.ext_mem fun v => by simp [IdSet.isEmpty_iff.mp empty]
      rw [none]
      exact .replaced set_clear (Ne.symm something.1)
    · exact becomes_replace _

theorem becomes_subtract : h.Becomes (h.set \ k.set) (h.subtract fresh k) := by
  unfold subtract
  split
  · rename_i nothing
    refine .unchanged (IdSet.ext_mem fun v => ?_)
    rcases Bool.or_eq_true_iff.mp nothing with empty | empty
    · simp [IdSet.isEmpty_iff.mp empty]
    · simp [IdSet.isEmpty_iff.mp empty]
  · rename_i something
    simp only [Bool.or_eq_true, not_or, IdSet.isEmpty_iff] at something
    split
    · rename_i same
      have none : h.set \ k.set = ∅ := IdSet.ext_mem fun v => by simp [shared same]
      rw [none]
      exact .replaced set_clear (Ne.symm something.1)
    · exact becomes_replace _

end

end MemFlow.Handle

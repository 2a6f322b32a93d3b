import Mathlib.Data.Set.Basic
import Mathlib.Tactic.Tauto
import MemFlow.Proofs.Closures

/-!
# Sets that stand for all memory

A set that holds the sentinel of all memory stands for every id, whatever else it lists. Read
like this, union and intersection are those of sets, although the two sides of an intersection
that both hold the sentinel give different ids when they change places. A difference goes by the
ids alone, so the sentinel only leaves a set if it is named.

What the operations report is read off the branches they take: `Handle.Becomes` says of each that
its flag tells a change, and from there it does not matter which handles the ids are behind.
-/

namespace MemFlow

namespace DescSet

/-- Every member is one of the given ids. -/
def DrawnFrom (s : DescSet) (ids : Set DescId) : Prop := ∀ d ∈ s, d ∈ ids

/-- What the set stands for among the given ids: all of them if it holds the sentinel of all
memory, and otherwise its members. -/
def standsFor (s : DescSet) (ids : Set DescId) : Set DescId :=
  if .allMem ∈ s then ids else {d | d ∈ s}

/-- The flag that comes with a new value of the set says whether the members have changed. -/
def FlagsChange (s : DescSet) (result : DescSet × Bool) : Prop :=
  result.2 = true ↔ ¬ ∀ d, d ∈ result.1 ↔ d ∈ s

variable {s t : DescSet} {d : DescId} {ids : Set DescId}

/-! ## Members -/

theorem ext_mem (h : ∀ d, d ∈ s ↔ d ∈ t) : s = t :=
  DescSet.ext (IdSet.ext_mem fun v => h ⟨v⟩)

theorem hasAllMem_iff : s.hasAllMem = true ↔ .allMem ∈ s := by
  simp [hasAllMem]

/-- The ids that two sets have in common. -/
def commonIds (a b : IdSet) : IdSet :=
  if DescId.allMem.num ∈ b then a else if DescId.allMem.num ∈ a then b else a ∩ b

theorem mem_commonIds {a b : IdSet} {v : Nat} : v ∈ commonIds a b ↔
    if DescId.allMem.num ∈ b then v ∈ a else if DescId.allMem.num ∈ a then v ∈ b
      else v ∈ a ∧ v ∈ b := by
  unfold commonIds
  split
  · rfl
  · split
    · rfl
    · exact IdSet.mem_inter

theorem becomes_common {h k : Handle} {fresh : Nat} (shared : h.shares k = true → h.set = k.set) :
    h.Becomes (commonIds h.set k.set) (common fresh h k) := by
  unfold common commonIds
  simp only [← IdSet.mem_iff]
  split
  · exact .unchanged rfl
  · split
    · exact ⟨rfl, decide_eq_decide.mpr ne_comm⟩
    · exact Handle.becomes_inter shared

theorem becomes_diff : (s.held 0).Becomes (s.ids \ t.ids) ((s.held 0).subtract 2 (t.held 1)) :=
  Handle.becomes_subtract held_apart

theorem becomes_intersect :
    (s.held 0).Becomes (commonIds s.ids t.ids) (common 2 (s.held 0) (t.held 1)) :=
  becomes_common held_apart

theorem mem_diff : d ∈ (s.diff t).1 ↔ d ∈ s ∧ d ∉ t := by
  show d.num ∈ (s.diff t).1.ids ↔ _
  rw [show (s.diff t).1.ids = s.ids \ t.ids from becomes_diff.members]
  exact IdSet.mem_sdiff

/-- A side that stands for all memory gives way to the other one, the right side first. -/
theorem mem_intersect : d ∈ (s.intersect t).1 ↔
    if .allMem ∈ t then d ∈ s else if .allMem ∈ s then d ∈ t else d ∈ s ∧ d ∈ t := by
  show d.num ∈ (s.intersect t).1.ids ↔ _
  rw [show (s.intersect t).1.ids = commonIds s.ids t.ids from becomes_intersect.members]
  exact mem_commonIds

theorem drawnFrom_ofList {ds : List DescId} : (ofList ds).DrawnFrom ids ↔ ∀ d ∈ ds, d ∈ ids := by
  simp [DrawnFrom, ofList]

theorem DrawnFrom.union (hs : s.DrawnFrom ids) (ht : t.DrawnFrom ids) :
    (s.union t).1.DrawnFrom ids := by
  intro d hd
  exact (mem_union.mp hd).elim (hs d) (ht d)

theorem DrawnFrom.intersect (hs : s.DrawnFrom ids) (ht : t.DrawnFrom ids) :
    (s.intersect t).1.DrawnFrom ids := by
  intro d hd
  rw [mem_intersect] at hd
  split at hd
  · exact hs d hd
  · split at hd
    · exact ht d hd
    · exact hs d hd.1

/-! ## What the results stand for -/

theorem mem_standsFor (hs : s.DrawnFrom ids) :
    d ∈ s.standsFor ids ↔ d ∈ s ∨ (.allMem ∈ s ∧ d ∈ ids) := by
  unfold standsFor
  split
  · rename_i all
    constructor
    · intro hd
      exact Or.inr ⟨all, hd⟩
    · rintro (hd | ⟨-, hd⟩)
      · exact hs d hd
      · exact hd
  · rename_i few
    simp [few]

theorem standsFor_union (hs : s.DrawnFrom ids) (ht : t.DrawnFrom ids) :
    (s.union t).1.standsFor ids = s.standsFor ids ∪ t.standsFor ids := by
  ext d
  rw [Set.mem_union, mem_standsFor (hs.union ht), mem_standsFor hs, mem_standsFor ht, mem_union,
    mem_union]
  tauto

theorem standsFor_intersect (hs : s.DrawnFrom ids) (ht : t.DrawnFrom ids) :
    (s.intersect t).1.standsFor ids = s.standsFor ids ∩ t.standsFor ids := by
  ext d
  have from_s := hs d
  have from_t := ht d
  rw [Set.mem_inter_iff, mem_standsFor (hs.intersect ht), mem_standsFor hs, mem_standsFor ht,
    mem_intersect, mem_intersect]
  by_cases all_t : .allMem ∈ t
  · simp only [all_t, if_true, true_and]
    tauto
  · by_cases all_s : .allMem ∈ s
    · simp only [all_t, all_s, if_true, if_false, true_and]
      tauto
    · simp only [all_t, all_s, if_false]
      tauto

/-! ## Flags -/

theorem flagsChange_of_becomes {version : Nat} {new : IdSet} {r : Handle × Bool}
    (h : (s.held version).Becomes new r) : s.FlagsChange (ofHandle r) := by
  have differs : r.2 = true ↔ (ofHandle r).1 ≠ s := by
    rw [h.changed, decide_eq_true_eq, ← h.members, ne_eq, ne_eq, DescSet.ext_iff]
    rfl
  refine differs.trans (not_congr ⟨?_, ext_mem⟩)
  intro same d
  rw [same]

/-- Handles on the same ids give the same result, whatever storage they are on. -/
theorem ofHandle_eq {h k : Handle} {new : IdSet} {r r' : Handle × Bool} (hr : h.Becomes new r)
    (hk : k.Becomes new r') (same : h.set = k.set) : ofHandle r = ofHandle r' := by
  refine Prod.ext (DescSet.ext ?_) ?_
  · exact hr.members.trans hk.members.symm
  · exact hr.changed.trans (same ▸ hk.changed.symm)

/-- The operations on values give what handles on the same ids give. Only handles that share
storage while they hold different sets are left out, and there are none. -/
theorem ofHandle_of_held {h k : Handle} (fresh : Nat) (hs : h.set = s.ids) (ht : k.set = t.ids)
    (shared : h.shares k = true → s = t) :
    ofHandle (h.union fresh k) = s.union t ∧ ofHandle (h.subtract fresh k) = s.diff t ∧
      ofHandle (common fresh h k) = s.intersect t := by
  have one : h.shares k = true → h.set = k.set := by
    intro same
    rw [hs, ht, shared same]
  have union : h.Becomes _ (h.union fresh k) := Handle.becomes_union one
  have diff : h.Becomes _ (h.subtract fresh k) := Handle.becomes_subtract one
  have intersect : h.Becomes _ (common fresh h k) := becomes_common one
  rw [hs, ht] at union diff intersect
  exact ⟨ofHandle_eq union becomes_union hs, ofHandle_eq diff becomes_diff hs,
    ofHandle_eq intersect becomes_intersect hs⟩

end DescSet

open DescSet

/-- **The algebra of sets takes all memory for everything.** Whatever ids the members are drawn
from, a union stands for what either side stands for and an intersection for what both do, so
that intersecting is commutative, associative and idempotent in what the results stand for. A
difference has the members of the left side that the right side does not list; a sentinel is
lost only if the right side lists it. Each operation reports exactly whether the members of its
left side have changed. -/
theorem all_memory_is_everything (ids : Set DescId) (s t u : DescSet) (hs : s.DrawnFrom ids)
    (ht : t.DrawnFrom ids) (hu : u.DrawnFrom ids) :
    (s.union t).1.standsFor ids = s.standsFor ids ∪ t.standsFor ids ∧
    (s.intersect t).1.standsFor ids = s.standsFor ids ∩ t.standsFor ids ∧
    (s.intersect t).1.standsFor ids = (t.intersect s).1.standsFor ids ∧
    ((s.intersect t).1.intersect u).1.standsFor ids =
      (s.intersect (t.intersect u).1).1.standsFor ids ∧
    (s.intersect s).1.standsFor ids = s.standsFor ids ∧
    (∀ d, d ∈ (s.diff t).1 ↔ d ∈ s ∧ d ∉ t) ∧
    (∀ d, d.isSentinel = true → d ∈ s → d ∉ (s.diff t).1 → d ∈ t) ∧
    s.FlagsChange (s.union t) ∧ s.FlagsChange (s.diff t) ∧ s.FlagsChange (s.intersect t) ∧
    (∀ (fresh : Nat) (h k : Handle), h.set = s.ids → k.set = t.ids →
      (h.shares k = true → s = t) →
      ofHandle (h.union fresh k) = s.union t ∧ ofHandle (h.subtract fresh k) = s.diff t ∧
        ofHandle (common fresh h k) = s.intersect t) := by
  have left := standsFor_intersect hs ht
  refine ⟨standsFor_union hs ht, left, ?_, ?_, ?_, fun d => mem_diff, ?_,
    flagsChange_of_becomes becomes_union, flagsChange_of_becomes becomes_diff,
    flagsChange_of_becomes becomes_intersect, fun fresh h k => ofHandle_of_held fresh⟩
  · rw [left, standsFor_intersect ht hs, Set.inter_comm]
  · rw [standsFor_intersect (hs.intersect ht) hu, left, standsFor_intersect hs (ht.intersect hu),
      standsFor_intersect ht hu, Set.inter_assoc]
  · rw [standsFor_intersect hs hs, Set.inter_self]
  · intro d _ hd lost
    by_contra unlisted
    exact lost (mem_diff.mpr ⟨hd, unlisted⟩)

/-- Among the ids of 32 bits, two sets that hold the sentinel beside other ids. Which ids are left
of them depends on the side, but both results stand for everything. The greatest id of all is in
what either stands for, and the sentinel stays when the other ids are taken out. Taking a set out
of itself through handles on one storage takes a shortcut to the same empty set. -/
theorem everything_from_both_sides :
    let ids : Set DescId := {d | d.num < Nat.pow 2 32}
    let s : DescSet := .ofList [.allMem, ⟨3⟩]
    let t : DescSet := .ofList [⟨4⟩, .allMem]
    let u : DescSet := .ofList [⟨3⟩, ⟨Nat.pow 2 32 - 1⟩]
    s.DrawnFrom ids ∧ t.DrawnFrom ids ∧ u.DrawnFrom ids ∧
    (s.intersect t).1 ≠ (t.intersect s).1 ∧
    (s.intersect t).1.standsFor ids = (t.intersect s).1.standsFor ids ∧
    (s.intersect u).1.standsFor ids = s.standsFor ids ∩ u.standsFor ids ∧
    ⟨Nat.pow 2 32 - 1⟩ ∈ s.standsFor ids ∩ u.standsFor ids ∧
    (s.intersect u).2 = true ∧ s.FlagsChange (s.intersect u) ∧
    DescId.allMem ∈ (s.diff u).1 ∧
    ofHandle ((s.held 7).subtract 8 (s.held 7)) = s.diff s ∧ s.diff s = (∅, true) := by
  intro ids s t u
  have hs : s.DrawnFrom ids := drawnFrom_ofList.mpr (by simp [ids, DescId.allMem])
  have ht : t.DrawnFrom ids := drawnFrom_ofList.mpr (by simp [ids, DescId.allMem])
  have hu : u.DrawnFrom ids := drawnFrom_ofList.mpr (by simp [ids])
  obtain ⟨-, -, sides, -⟩ := all_memory_is_everything ids s t u hs ht hu
  obtain ⟨-, both, -, -, -, members, -, -, -, flag, -⟩ :=
    all_memory_is_everything ids s u t hs hu ht
  obtain ⟨-, -, -, -, -, -, -, -, -, -, handles⟩ := all_memory_is_everything ids s s s hs hs hs
  refine ⟨hs, ht, hu, by decide, sides, both, ?_, by decide, flag, ?_,
    (handles 8 (s.held 7) (s.held 7) rfl rfl fun _ => rfl).2.1, by decide⟩
  · rw [← both, mem_standsFor (hs.intersect hu)]
    exact Or.inl (by decide)
  · exact (members _).mpr (by decide)

end MemFlow

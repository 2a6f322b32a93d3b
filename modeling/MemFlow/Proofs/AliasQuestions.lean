import MemFlow.Registry.Alias
import MemFlow.Proofs.AllMemory
import MemFlow.Proofs.Footprints
import MemFlow.Proofs.SetClosures

/-!
# What alias questions answer

A question about sets of descriptors takes several ways to its answer: an empty set, all memory,
a shared id and an id that is not registered are each recognised before descriptors are compared.
The answer does not show which way was taken. It is yes exactly if two ids might stand for a
common byte, where an id that is not registered might stand for anything. For registered ids it
is also the answer that closures give.
-/

namespace MemFlow

namespace Registry

/-- Both ids are registered, and their descriptors are related. -/
def Relates (r : Registry) (rel : Descriptor → Descriptor → Bool) (a b : DescId) : Prop :=
  ∃ x y, r.desc? a = some x ∧ r.desc? b = some y ∧ rel x y = true

/-- The two ids might stand for a common byte. -/
def MayShare (r : Registry) (a b : DescId) : Prop :=
  r.isRegistered a = false ∨ r.isRegistered b = false ∨ r.Relates Descriptor.overlaps a b

variable {r : Registry} {a b : DescId}

theorem mayShare_comm : r.MayShare a b ↔ r.MayShare b a := by
  have flips {a b : DescId} (h : r.MayShare a b) : r.MayShare b a := by
    rcases h with unknown | unknown | ⟨x, y, hx, hy, overlaps⟩
    · exact Or.inr (Or.inl unknown)
    · exact Or.inl unknown
    · rw [Descriptor.overlaps_comm] at overlaps
      exact Or.inr (Or.inr ⟨y, x, hy, hx, overlaps⟩)
  exact ⟨flips, flips⟩

theorem mayShare_of_registered
    (h : ∀ x y, r.desc? a = some x → r.desc? b = some y → x.overlaps y = true) :
    r.MayShare a b := by
  by_cases known_a : r.isRegistered a = true
  · by_cases known_b : r.isRegistered b = true
    · obtain ⟨x, hx⟩ := isRegistered_iff.mp known_a
      obtain ⟨y, hy⟩ := isRegistered_iff.mp known_b
      exact Or.inr (Or.inr ⟨x, y, hx, hy, h x y hx hy⟩)
    · exact Or.inr (Or.inl (by simpa using known_b))
  · exact Or.inl (by simpa using known_a)

theorem WellFormed.mayShare_self (wf : r.WellFormed) (a : DescId) : r.MayShare a a := by
  apply mayShare_of_registered
  intro x y hx hy
  obtain rfl : x = y := Option.some.inj (hx.symm.trans hy)
  exact (wf.relationLaws r.ample_spread).overlaps_refl x (mem_descs_iff.mpr ⟨a, hx⟩)

theorem inClosure_plain_iff : r.InClosure false a b ↔ r.Relates Descriptor.overlaps a b := by
  simp [InClosure, Relates]

/-- All memory covers whatever is registered. -/
theorem WellFormed.relates_allMem (wf : r.WellFormed) {y : Descriptor} (hb : r.desc? b = some y) :
    r.Relates Descriptor.covers .allMem b := by
  obtain ⟨x, hx, all⟩ := wf.desc?_allMem
  refine ⟨x, y, hx, hb, ?_⟩
  unfold Descriptor.covers
  rw [all]

theorem WellFormed.mayShare_allMem (wf : r.WellFormed) (b : DescId) : r.MayShare .allMem b := by
  apply mayShare_of_registered
  intro x y hx _
  obtain ⟨x', hx', all⟩ := wf.desc?_allMem
  obtain rfl : x = x' := Option.some.inj (hx.symm.trans hx')
  exact Descriptor.overlaps_of_allMem all

end Registry

namespace DescSet

variable {r : Registry} {s t : DescSet} {d : DescId}

/-! ## Members, one by one -/

theorem holdsOrUnknown_iff {p : Descriptor → Bool} :
    holdsOrUnknown r d p = true ↔
      r.isRegistered d = false ∨ ∃ x, r.desc? d = some x ∧ p x = true := by
  unfold holdsOrUnknown
  split
  · rename_i x found
    have known : ¬ r.isRegistered d = false := by
      simp [Registry.isRegistered_iff.mpr ⟨x, found⟩]
    simp [known, found]
  · rename_i missing
    refine iff_of_true rfl (Or.inl ?_)
    rw [← Bool.not_eq_true, Registry.isRegistered_iff]
    simp [missing]

theorem exists_mem_of_isEmpty (h : ¬ s.isEmpty = true) : ∃ d, d ∈ s := by
  rw [isEmpty_iff, not_forall_not] at h
  exact h

/-- The sentinels come first, so the walk over them meets all of them. -/
theorem mem_takeWhile_sentinels :
    d ∈ s.toList.takeWhile (·.isSentinel) ↔ d ∈ s ∧ d.isSentinel = true := by
  rw [mem_takeWhile_of_ascending s.pairwise_toList, mem_toList]
  refine and_congr_right fun _ => and_iff_left_of_imp ?_
  intro sentinel e _ other
  simp only [DescId.isSentinel, decide_eq_true_eq, decide_eq_false_iff_not] at sentinel other
  omega

/-! ## The questions -/

theorem mayOverlap_iff (wf : r.WellFormed) : s.mayOverlap r d = true ↔ ∃ a ∈ s, r.MayShare a d := by
  unfold mayOverlap
  split
  · rename_i empty
    refine iff_of_false Bool.false_ne_true ?_
    rintro ⟨a, ha, -⟩
    exact isEmpty_iff.mp empty a ha
  · rename_i inhabited
    obtain ⟨m, hm⟩ := exists_mem_of_isEmpty inhabited
    split
    · rename_i all
      refine iff_of_true rfl ?_
      rw [Bool.or_eq_true, hasAllMem_iff, decide_eq_true_eq] at all
      rcases all with held | rfl
      · exact ⟨.allMem, held, wf.mayShare_allMem d⟩
      · exact ⟨m, hm, Registry.mayShare_comm.mp (wf.mayShare_allMem m)⟩
    · rw [holdsOrUnknown_iff]
      simp only [List.any_eq_true, mem_toList, holdsOrUnknown_iff]
      constructor
      · rintro (unknown | ⟨y, hy, a, ha, unknown | ⟨x, hx, overlaps⟩⟩)
        · exact ⟨m, hm, Or.inr (Or.inl unknown)⟩
        · exact ⟨a, ha, Or.inl unknown⟩
        · exact ⟨a, ha, Or.inr (Or.inr ⟨x, y, hx, hy, overlaps⟩)⟩
      · rintro ⟨a, ha, shares⟩
        by_cases known : r.isRegistered d = true
        · obtain ⟨y, hy⟩ := Registry.isRegistered_iff.mp known
          refine Or.inr ⟨y, hy, a, ha, ?_⟩
          rcases shares with unknown | unknown | ⟨x, y', hx, hy', overlaps⟩
          · exact Or.inl unknown
          · rw [known] at unknown
            cases unknown
          · obtain rfl : y = y' := Option.some.inj (hy.symm.trans hy')
            exact Or.inr ⟨x, hx, overlaps⟩
        · exact Or.inl (by simpa using known)

theorem mayOverlapSet_iff (wf : r.WellFormed) :
    s.mayOverlapSet r t = true ↔ ∃ a ∈ s, ∃ b ∈ t, r.MayShare a b := by
  unfold mayOverlapSet
  split
  · rename_i empty
    refine iff_of_false Bool.false_ne_true ?_
    rintro ⟨a, ha, b, hb, -⟩
    rw [Bool.or_eq_true, isEmpty_iff, isEmpty_iff] at empty
    exact empty.elim (fun none => none a ha) (fun none => none b hb)
  · rename_i inhabited
    rw [Bool.or_eq_true, not_or] at inhabited
    obtain ⟨a, ha⟩ := exists_mem_of_isEmpty inhabited.1
    obtain ⟨b, hb⟩ := exists_mem_of_isEmpty inhabited.2
    split
    · rename_i all
      refine iff_of_true rfl ?_
      rw [Bool.or_eq_true, hasAllMem_iff, hasAllMem_iff] at all
      rcases all with left | right
      · exact ⟨.allMem, left, b, hb, wf.mayShare_allMem b⟩
      · exact ⟨a, ha, .allMem, right, Registry.mayShare_comm.mp (wf.mayShare_allMem a)⟩
    · split
      · rename_i common
        obtain ⟨c, hs, ht⟩ := meets_iff.mp common
        exact iff_of_true rfl ⟨c, hs, c, ht, wf.mayShare_self c⟩
      · simp only [List.any_eq_true, mem_toList, mayOverlap_iff wf]
        constructor
        · rintro ⟨b, hb, a, ha, shares⟩
          exact ⟨a, ha, b, hb, shares⟩
        · rintro ⟨a, ha, b, hb, shares⟩
          exact ⟨b, hb, a, ha, shares⟩

theorem mayOverlapSet_comm (wf : r.WellFormed) (s t : DescSet) :
    s.mayOverlapSet r t = t.mayOverlapSet r s := by
  rw [Bool.eq_iff_iff, mayOverlapSet_iff wf, mayOverlapSet_iff wf]
  constructor
  · rintro ⟨a, ha, b, hb, shares⟩
    exact ⟨b, hb, a, ha, Registry.mayShare_comm.mp shares⟩
  · rintro ⟨b, hb, a, ha, shares⟩
    exact ⟨a, ha, b, hb, Registry.mayShare_comm.mp shares⟩

theorem mayOverlapSet_mono (wf : r.WellFormed) {s' t' : DescSet} (hs : ∀ a ∈ s, a ∈ s')
    (ht : ∀ b ∈ t, b ∈ t') (h : s.mayOverlapSet r t = true) : s'.mayOverlapSet r t' = true := by
  obtain ⟨a, ha, b, hb, shares⟩ := (mayOverlapSet_iff wf).mp h
  exact (mayOverlapSet_iff wf).mpr ⟨a, hs a ha, b, ht b hb, shares⟩

theorem accountsFor_iff (wf : r.WellFormed) :
    s.accountsFor r d = true ↔ d ∈ s ∨ r.isRegistered d = false ∨
      ∃ m ∈ s, m.isSentinel = true ∧ r.Relates Descriptor.covers m d := by
  unfold accountsFor
  split
  · rename_i sure
    refine iff_of_true rfl ?_
    rw [Bool.or_eq_true, decide_eq_true_eq, hasAllMem_iff] at sure
    rcases sure with member | all
    · exact Or.inl member
    · by_cases known : r.isRegistered d = true
      · obtain ⟨y, hy⟩ := Registry.isRegistered_iff.mp known
        exact Or.inr (Or.inr ⟨.allMem, all, rfl, wf.relates_allMem hy⟩)
      · exact Or.inr (Or.inl (by simpa using known))
  · rename_i unsure
    rw [Bool.or_eq_true, decide_eq_true_eq, not_or] at unsure
    rw [holdsOrUnknown_iff, or_iff_right unsure.1]
    refine or_congr_right ?_
    simp only [List.any_eq_true, mem_takeWhile_sentinels, holdsOrUnknown_iff]
    constructor
    · rintro ⟨y, hy, m, ⟨hm, sentinel⟩, unknown | ⟨x, hx, covers⟩⟩
      · rw [wf.registered_of_sentinel sentinel] at unknown
        cases unknown
      · exact ⟨m, hm, sentinel, x, y, hx, hy, covers⟩
    · rintro ⟨m, hm, sentinel, x, y, hx, hy, covers⟩
      exact ⟨y, hy, m, ⟨hm, sentinel⟩, Or.inr ⟨x, hx, covers⟩⟩

theorem reachesGlobal_iff : s.reachesGlobal r = true ↔ ∃ m ∈ s, m.isSentinel = true ∨
    r.isRegistered m = false ∨ ∃ x, r.desc? m = some x ∧ x.storage.isGlobal = true := by
  simp only [reachesGlobal, List.any_eq_true, mem_toList, Bool.or_eq_true, holdsOrUnknown_iff]

/-! ## The answer of closures -/

/-- What a plain closure of the left side holds, looked up in the right side, gives the same
answer. -/
theorem mayOverlapSet_eq_meets (wf : r.WellFormed) (hs : r.Knows s) (ht : r.Knows t) {c : DescSet}
    (members : ∀ e, e ∈ c ↔ ∃ a ∈ s, r.InClosure false a e) :
    s.mayOverlapSet r t = c.meets t := by
  have known_s : ∀ a ∈ s, ¬ r.isRegistered a = false := fun a ha => by simp [hs a ha]
  have known_t : ∀ b ∈ t, ¬ r.isRegistered b = false := fun b hb => by simp [ht b hb]
  rw [Bool.eq_iff_iff, mayOverlapSet_iff wf, meets_iff]
  simp only [members, Registry.inClosure_plain_iff]
  constructor
  · rintro ⟨a, ha, b, hb, unknown | unknown | overlaps⟩
    · exact absurd unknown (known_s a ha)
    · exact absurd unknown (known_t b hb)
    · exact ⟨b, ⟨a, ha, overlaps⟩, hb⟩
  · rintro ⟨b, ⟨a, ha, overlaps⟩, hb⟩
    exact ⟨a, ha, b, hb, Or.inr (Or.inr overlaps)⟩

end DescSet

/-- **Alias questions are exact, and err on the safe side only for unknown ids.** In every registry
that requests lead to, a set may overlap an id if one of its members might share a byte with it,
and two sets if a member of the one might with a member of the other; this is symmetric, and
larger sets overlap all the more. A set accounts for its members, for ids that are not registered
and for what one of its sentinels covers; it reaches global storage if some member is a sentinel,
is not registered, or is stored there. Between sets of registered ids, the answer is whether the
closure of the one shares an id with the other, also when the closure comes from a memo. -/
theorem alias_questions_exact (edits : List RegistryEdit) (s t : DescSet) (d : DescId) :
    let r := Registry.initial.run edits
    (s.mayOverlap r d = true ↔ ∃ a ∈ s, r.MayShare a d) ∧
    (s.mayOverlapSet r t = true ↔ ∃ a ∈ s, ∃ b ∈ t, r.MayShare a b) ∧
    s.mayOverlapSet r t = t.mayOverlapSet r s ∧
    (∀ s' t' : DescSet, (∀ a ∈ s, a ∈ s') → (∀ b ∈ t, b ∈ t') →
      s.mayOverlapSet r t = true → s'.mayOverlapSet r t' = true) ∧
    (s.accountsFor r d = true ↔ d ∈ s ∨ r.isRegistered d = false ∨
      ∃ m ∈ s, m.isSentinel = true ∧ r.Relates Descriptor.covers m d) ∧
    (s.reachesGlobal r = true ↔ ∃ m ∈ s, m.isSentinel = true ∨ r.isRegistered m = false ∨
      ∃ x, r.desc? m = some x ∧ x.storage.isGlobal = true) ∧
    (r.Knows s → r.Knows t →
      (∃ c, r.closureOfSet false s = .ok c ∧
        (s.mayOverlapSet r t = true ↔ ∃ e, e ∈ c ∧ e ∈ t)) ∧
      ∀ m : ClosureMemo, m.Answers r false →
        ∃ m' c, m.askSet s = (m', .ok c) ∧ s.mayOverlapSet r t = c.meets t) := by
  intro r
  have wf : r.WellFormed := Registry.wellFormed_run edits
  refine ⟨DescSet.mayOverlap_iff wf, DescSet.mayOverlapSet_iff wf,
    DescSet.mayOverlapSet_comm wf s t, fun s' t' => DescSet.mayOverlapSet_mono wf,
    DescSet.accountsFor_iff wf, DescSet.reachesGlobal_iff, ?_⟩
  intro hs ht
  constructor
  · obtain ⟨c, closed, members⟩ := wf.closureOfSet_ok hs false
    refine ⟨c, closed, ?_⟩
    rw [DescSet.mayOverlapSet_eq_meets wf hs ht members, DescSet.meets_iff]
  · intro m hm
    obtain ⟨m', c, asked⟩ := ClosureMemo.askSet_ok hm hs
    obtain ⟨-, members⟩ := ClosureMemo.askSet_spec asked hm
    exact ⟨m', c, asked, DescSet.mayOverlapSet_eq_meets wf hs ht (members wf)⟩

/-- A part of the local variable and the imported one overlap the globals and not the other part,
which their closure says too. They account for an id that is not registered, and all of them might
share a byte with it. -/
theorem quay_questions :
    let ours : DescSet := .ofList [⟨4⟩, ⟨7⟩]
    let theirs : DescSet := .ofList [.globalMem, ⟨3⟩]
    quay.Knows ours ∧ quay.Knows theirs ∧
    (∃ c, quay.closureOfSet false ours = .ok c ∧ ∃ e, e ∈ c ∧ e ∈ theirs) ∧
    (∃ m' c, ClosureMemo.askSet { registry := quay, strict := false } ours = (m', .ok c) ∧
      c.meets theirs = true) ∧
    (¬ ∃ a ∈ ours, quay.MayShare a ⟨3⟩) ∧ (∃ a ∈ ours, quay.MayShare a ⟨9⟩) ∧
    quay.isRegistered ⟨9⟩ = false ∧ ours.accountsFor quay ⟨9⟩ = true ∧
    (¬ ∃ m ∈ ours, m.isSentinel = true ∧ quay.Relates Descriptor.covers m ⟨3⟩) ∧
    (∃ m ∈ ours, m.isSentinel = true ∨ quay.isRegistered m = false ∨
      ∃ x, quay.desc? m = some x ∧ x.storage.isGlobal = true) := by
  intro ours theirs
  have knows (s : DescSet) (all : ∀ d ∈ s.toList, quay.isRegistered d = true) : quay.Knows s :=
    fun d hd => all d (DescSet.mem_toList.mpr hd)
  have hs : quay.Knows ours := knows _ (by decide)
  have ht : quay.Knows theirs := knows _ (by decide)
  have overlap : ours.mayOverlapSet quay theirs = true := by decide
  obtain ⟨part, -, -, -, accounts, reaches, agree⟩ :=
    alias_questions_exact quayEdits ours theirs ⟨3⟩
  obtain ⟨beyond, -, -, -, unknown, -, -⟩ := alias_questions_exact quayEdits ours theirs ⟨9⟩
  obtain ⟨⟨c, closed, shares⟩, remembered⟩ := agree hs ht
  obtain ⟨m', c', asked, same⟩ := remembered _ (ClosureMemo.answers_new quay false)
  refine ⟨hs, ht, ⟨c, closed, shares.mp overlap⟩, ⟨m', c', asked, same.symm.trans overlap⟩, ?_,
    beyond.mp (by decide), by decide, unknown.mpr (Or.inr (Or.inl (by decide))), ?_,
    reaches.mp (by decide)⟩
  · intro shared
    exact absurd (part.mpr shared) (by decide)
  · intro covered
    exact absurd (accounts.mpr (Or.inr (Or.inr covered))) (by decide)

end MemFlow

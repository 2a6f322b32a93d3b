import MemFlow.IdSet.HandleLemmas
import MemFlow.Registry.Memo
import MemFlow.Proofs.RegistryInvariant

/-!
# Closures are exact

In a registry that requests made, looking at the descriptors of one variable and
at the sentinels misses nothing: a closure holds every registered descriptor
that overlaps its target. A memo answers with the same closures, whatever it was
asked before.
-/

namespace MemFlow

/-! ## Sets of descriptors -/

namespace DescSet

variable {s t : DescSet} {d e : DescId}

@[simp] theorem not_mem_empty (d : DescId) : d ∉ (∅ : DescSet) := IdSet.not_mem_empty d.num

@[simp] theorem mem_insert : d ∈ s.insert e ↔ d ∈ s ∨ d = e := by
  have h : d.num ∈ s.ids.insert e.num ↔ d.num ∈ s.ids ∨ d.num = e.num := IdSet.mem_insert
  rw [← DescId.mk.injEq] at h
  exact h

@[simp] theorem mem_insertAll {ds : List DescId} : d ∈ s.insertAll ds ↔ d ∈ s ∨ d ∈ ds := by
  induction ds generalizing s with
  | nil => simp [insertAll]
  | cons e ds ih =>
    have step : s.insertAll (e :: ds) = (s.insert e).insertAll ds := rfl
    rw [step, ih, mem_insert, List.mem_cons, or_assoc]

/-- The handles that stand for two values share no storage. -/
theorem held_apart : (s.held 0).shares (t.held 1) = true → (s.held 0).set = (t.held 1).set := by
  intro same
  cases same

theorem becomes_union : (s.held 0).Becomes (s.ids ∪ t.ids) ((s.held 0).union 2 (t.held 1)) :=
  Handle.becomes_union held_apart

@[simp] theorem mem_union : d ∈ (s.union t).1 ↔ d ∈ s ∨ d ∈ t := by
  show d.num ∈ (s.union t).1.ids ↔ _
  rw [show (s.union t).1.ids = s.ids ∪ t.ids from becomes_union.members]
  exact IdSet.mem_union

@[simp] theorem mem_toList : d ∈ s.toList ↔ d ∈ s := by
  simp only [toList, List.mem_map, IdSet.mem_toList]
  constructor
  · rintro ⟨v, hv, rfl⟩
    exact hv
  · intro h
    exact ⟨d.num, h, rfl⟩

theorem meets_iff : s.meets t = true ↔ ∃ d, d ∈ s ∧ d ∈ t := by
  rw [meets, IdSet.meets_iff]
  constructor
  · rintro ⟨v, hs, ht⟩
    exact ⟨⟨v⟩, hs, ht⟩
  · rintro ⟨d, hs, ht⟩
    exact ⟨d.num, hs, ht⟩

theorem isEmpty_iff : s.isEmpty = true ↔ ∀ d, d ∉ s := by
  rw [isEmpty, IdSet.isEmpty_iff_not_mem]
  exact ⟨fun h d => h d.num, fun h v => h ⟨v⟩⟩

end DescSet

/-! ## Overlap -/

theorem Descriptor.overlaps_comm (a b : Descriptor) : a.overlaps b = b.overlaps a := by
  unfold overlaps
  cases a.sentinel? <;> cases b.sentinel? <;> simp only
  rw [Bool.eq_iff_iff]
  simp only [Bool.and_eq_true, Bool.or_eq_true, decide_eq_true_eq]
  grind

theorem Descriptor.base_eq_of_overlaps {a b : Descriptor} (ha : a.sentinel? = none)
    (hb : b.sentinel? = none) (h : a.overlaps b = true) : a.base = b.base := by
  simp only [overlaps, ha, hb, Bool.and_eq_true, decide_eq_true_eq] at h
  exact h.1

namespace Registry

variable {r : Registry}

theorem get_eq_ok {d : DescId} {desc : Descriptor} :
    r.get d = .ok desc ↔ r.desc? d = some desc := by
  unfold get
  cases r.desc? d <;> simp

theorem isRegistered_iff {d : DescId} :
    r.isRegistered d = true ↔ ∃ desc, r.desc? d = some desc := by
  simp [isRegistered, desc?, ← Option.isSome_iff_exists]

theorem WellFormed.registered_of_sentinel (wf : r.WellFormed) {d : DescId}
    (h : d.isSentinel = true) : r.isRegistered d = true := by
  have first : d.num < DescId.firstOrdinary := by simpa [DescId.isSentinel] using h
  have held : DescId.firstOrdinary ≤ r.descs.size := wf.sentinels
  simpa [isRegistered] using Nat.lt_of_lt_of_le first held

theorem mem_descs {desc : Descriptor} : desc ∈ r.descs.toList ↔ ∃ d, r.desc? d = some desc := by
  simp only [List.mem_iff_getElem?, Array.getElem?_toList]
  constructor
  · rintro ⟨i, hi⟩
    exact ⟨⟨i⟩, hi⟩
  · rintro ⟨d, hd⟩
    exact ⟨d.num, hd⟩

theorem mem_descs_iff {desc : Descriptor} : desc ∈ r.descs ↔ ∃ d, r.desc? d = some desc := by
  rw [← Array.mem_toList_iff]
  exact mem_descs

theorem mem_take_descs {desc : Descriptor} :
    desc ∈ r.descs.toList.take DescId.firstOrdinary ↔
      ∃ d, d.isSentinel = true ∧ r.desc? d = some desc := by
  simp only [List.mem_iff_getElem?, List.getElem?_take, Array.getElem?_toList]
  constructor
  · rintro ⟨i, hi⟩
    split at hi
    · rename_i h
      exact ⟨⟨i⟩, by simpa [DescId.isSentinel] using h, hi⟩
    · cases hi
  · rintro ⟨d, hs, hd⟩
    have h : d.num < DescId.firstOrdinary := by simpa [DescId.isSentinel] using hs
    exact ⟨d.num, by rw [if_pos h]; exact hd⟩

theorem mem_candidates (wf : r.WellFormed) {e : DescId} {target desc : Descriptor}
    (he : r.desc? e = some desc) (h : desc.overlaps target = true) :
    desc ∈ r.candidates target := by
  unfold candidates
  cases ht : target.sentinel? with
  | some s => exact mem_descs.mpr ⟨e, he⟩
  | none =>
    simp only [List.mem_append]
    rcases wf.form e desc he with ⟨hs, -⟩ | ⟨-, ordinary⟩
    · exact Or.inr (mem_take_descs.mpr ⟨e, hs, he⟩)
    · obtain ⟨v, hv, -, listed⟩ := ordinary.declared
      have base := Descriptor.base_eq_of_overlaps ordinary.not_sentinel ht h
      rw [base] at hv
      rw [wf.id_eq e desc he] at listed
      left
      rw [hv]
      exact List.mem_filterMap.mpr ⟨e, listed, he⟩

theorem registered_of_mem_candidates {target desc : Descriptor}
    (h : desc ∈ r.candidates target) : ∃ e, r.desc? e = some desc := by
  unfold candidates at h
  split at h
  · exact mem_descs.mp h
  · rcases List.mem_append.mp h with h | h
    · obtain ⟨e, -, he⟩ := List.mem_filterMap.mp h
      exact ⟨e, he⟩
    · obtain ⟨e, -, he⟩ := mem_take_descs.mp h
      exact ⟨e, he⟩

/-- The ids that a closure is to hold. -/
def InClosure (r : Registry) (strict : Bool) (d e : DescId) : Prop :=
  (∃ target desc, r.desc? d = some target ∧ r.desc? e = some desc ∧ target.overlaps desc = true) ∨
    (strict = true ∧ (e = .globalMem ∨ e = .importMem))

theorem mem_overlapping (wf : r.WellFormed) {strict : Bool} {d e : DescId} {target : Descriptor}
    (hd : r.desc? d = some target) :
    e ∈ r.overlapping strict target ↔ r.InClosure strict d e := by
  have extra : e ∈ (if strict then [DescId.globalMem, .importMem] else []) ↔
      strict = true ∧ (e = .globalMem ∨ e = .importMem) := by
    cases strict <;> simp
  rw [overlapping, List.mem_append, extra, InClosure]
  refine or_congr_left ?_
  simp only [List.mem_map, List.mem_filter]
  constructor
  · rintro ⟨desc, ⟨hc, ho⟩, rfl⟩
    obtain ⟨e, he⟩ := registered_of_mem_candidates hc
    rw [Descriptor.overlaps_comm] at ho
    exact ⟨target, desc, hd, (wf.id_eq e desc he).symm ▸ he, ho⟩
  · rintro ⟨target', desc, hd', he, ho⟩
    obtain rfl : target = target' := Option.some.inj (hd.symm.trans hd')
    rw [Descriptor.overlaps_comm] at ho
    exact ⟨desc, ⟨mem_candidates wf he ho, ho⟩, wf.id_eq e desc he⟩

/-- **A closure holds exactly what overlaps.** -/
theorem mem_closure (wf : r.WellFormed) {strict : Bool} {d : DescId} {s : DescSet}
    (h : r.closure strict d = .ok s) (e : DescId) : e ∈ s ↔ r.InClosure strict d e := by
  unfold closure closeInto at h
  cases hd : r.get d with
  | error err => simp [hd, result] at h
  | ok target =>
    simp only [hd, result, Except.ok.injEq] at h
    rw [← h, DescSet.mem_insertAll, mem_overlapping wf (get_eq_ok.mp hd)]
    simp

end Registry

/-! ## Remembered closures -/

namespace ClosureMemo

/-- A memo over the registry, with what the registry would answer in it. -/
structure Answers (m : ClosureMemo) (r : Registry) (strict : Bool) : Prop where
  registry_eq : m.registry = r
  strict_eq : m.strict = strict
  known : ∀ d s, m.known.lookup d = some s → r.closure strict d = .ok s

variable {m m' : ClosureMemo} {r : Registry} {strict : Bool}

theorem answers_new (r : Registry) (strict : Bool) :
    Answers { registry := r, strict } r strict := by
  refine ⟨rfl, rfl, ?_⟩
  intro d s h
  simp at h

/-- A memo answers as the registry does, refusals included. -/
theorem ask_closure (hm : m.Answers r strict) (d : DescId) :
    (m.ask d).1.Answers r strict ∧ (m.ask d).2 = r.closure strict d := by
  obtain ⟨rfl, rfl, known⟩ := hm
  unfold ask
  split
  · rename_i s found
    exact ⟨⟨rfl, rfl, known⟩, (known d s found).symm⟩
  · split
    · rename_i s closed
      refine ⟨⟨rfl, rfl, ?_⟩, closed.symm⟩
      intro e t ht
      rw [List.lookup_cons] at ht
      split at ht
      · rename_i heq
        cases ht
        exact (eq_of_beq heq) ▸ closed
      · exact known e t ht
    · rename_i e refused
      exact ⟨⟨rfl, rfl, known⟩, refused.symm⟩

theorem ask_spec {d : DescId} {s : DescSet} (h : m.ask d = (m', .ok s)) (hm : m.Answers r strict) :
    m'.Answers r strict ∧ r.closure strict d = .ok s := by
  obtain ⟨hm', closed⟩ := ask_closure hm d
  rw [h] at hm' closed
  exact ⟨hm', closed.symm⟩

theorem askAll_alike {n : ClosureMemo} (hm : m.Answers r strict) (hn : n.Answers r strict)
    (ds : List DescId) (acc : DescSet) :
    (m.askAll ds acc).1.Answers r strict ∧ (m.askAll ds acc).2 = (n.askAll ds acc).2 := by
  induction ds generalizing m n acc with
  | nil => exact ⟨hm, rfl⟩
  | cons d ds ih =>
    obtain ⟨hm', first⟩ := ask_closure hm d
    obtain ⟨hn', second⟩ := ask_closure hn d
    rcases asked : m.ask d with ⟨m', answer⟩
    rcases asked' : n.ask d with ⟨n', answer'⟩
    rw [asked] at hm' first
    rw [asked'] at hn' second
    obtain rfl : answer = answer' := first.trans second.symm
    simp only [askAll, asked, asked']
    cases answer with
    | ok s => exact ih hm' hn' (acc.union s).1
    | error e => exact ⟨hm', rfl⟩

/-- Two memos over one registry answer alike, whatever either was asked before. -/
theorem askSet_alike {n : ClosureMemo} (hm : m.Answers r strict) (hn : n.Answers r strict)
    (w : DescSet) :
    (m.askSet w).1.Answers r strict ∧ (m.askSet w).2 = (n.askSet w).2 :=
  askAll_alike hm hn w.toList ∅

theorem askAll_spec {ds : List DescId} {acc s : DescSet} (h : m.askAll ds acc = (m', .ok s))
    (hm : m.Answers r strict) :
    m'.Answers r strict ∧ (∀ d ∈ ds, ∃ c, r.closure strict d = .ok c) ∧
      ∀ e, e ∈ s ↔ e ∈ acc ∨ ∃ d ∈ ds, ∃ c, r.closure strict d = .ok c ∧ e ∈ c := by
  induction ds generalizing m acc with
  | nil =>
    obtain ⟨rfl, hs⟩ := Prod.mk.inj h
    cases hs
    exact ⟨hm, by simp, by simp⟩
  | cons d ds ih =>
    simp only [askAll] at h
    split at h
    · rename_i m₁ c hask
      obtain ⟨hm₁, closed⟩ := ask_spec hask hm
      obtain ⟨hm', answered, members⟩ := ih h hm₁
      refine ⟨hm', ?_, ?_⟩
      · intro e he
        rcases List.mem_cons.mp he with rfl | he
        · exact ⟨c, closed⟩
        · exact answered e he
      · intro e
        rw [members]
        simp [closed, or_assoc]
    · cases (Prod.mk.inj h).2

/-- **Asking about a set answers the closures of its members**, whatever was
asked before. -/
theorem askSet_spec {w s : DescSet} (h : m.askSet w = (m', .ok s)) (hm : m.Answers r strict) :
    m'.Answers r strict ∧
      (r.WellFormed → ∀ e, e ∈ s ↔ ∃ d ∈ w, r.InClosure strict d e) := by
  obtain ⟨hm', answered, members⟩ := askAll_spec h hm
  refine ⟨hm', ?_⟩
  intro wf e
  rw [members]
  constructor
  · rintro (he | ⟨d, hd, c, closed, he⟩)
    · exact absurd he (DescSet.not_mem_empty e)
    · exact ⟨d, DescSet.mem_toList.mp hd, (Registry.mem_closure wf closed e).mp he⟩
  · rintro ⟨d, hd, he⟩
    obtain ⟨c, closed⟩ := answered d (DescSet.mem_toList.mpr hd)
    exact Or.inr ⟨d, DescSet.mem_toList.mpr hd, c, closed,
      (Registry.mem_closure wf closed e).mpr he⟩

end ClosureMemo

end MemFlow

import MemFlow.Registry.Closure
import MemFlow.IdSet.Listing

/-!
# What requests make of a registry

Every registry that requests lead to numbers its descriptors by position, holds
the sentinels first, and lists every other descriptor with the variable that it
is about.
-/

namespace MemFlow

@[simp] theorem Spec.normalize_base (s : Spec) : s.normalize.base = s.base := by
  unfold normalize
  split <;> rfl

theorem Spec.normalize_normalize (s : Spec) : s.normalize.normalize = s.normalize := by
  cases hk : s.kind <;> simp [normalize, hk]

theorem Spec.validExtent_normalize {s : Spec} (h : s.validExtent = true) :
    s.normalize.validExtent = true := by
  cases hk : s.kind with
  | unbound => simp [normalize, validExtent, hk]
  | exact | range => simpa [normalize, hk] using h

namespace Registry

/-- A descriptor of a program variable, as a registry keeps it. -/
structure Ordinary (r : Registry) (desc : Descriptor) : Prop where
  not_sentinel : desc.sentinel? = none
  valid : desc.validExtent = true
  declared : ∃ v, r.var? desc.base = some v ∧ v.storage = desc.storage ∧ desc.id ∈ v.descs

/-- What holds of a registry after any requests. -/
structure WellFormed (r : Registry) : Prop where
  sentinels : DescId.firstOrdinary ≤ r.count
  id_eq : ∀ d desc, r.desc? d = some desc → desc.id = d
  form : ∀ d desc, r.desc? d = some desc →
    (d.isSentinel = true ∧ ∃ s storage, desc = sentinelDesc s storage) ∨
    (d.isSentinel = false ∧ r.Ordinary desc)

theorem sentinel?_sentinelDesc (s : Sentinel) (storage : Storage) :
    (sentinelDesc s storage).sentinel? = some s := by
  cases s <;> rfl

theorem WellFormed.ordinary {r : Registry} (wf : r.WellFormed) {d : DescId} {desc : Descriptor}
    (h : r.desc? d = some desc) (hs : desc.sentinel? = none) : r.Ordinary desc := by
  rcases wf.form d desc h with ⟨-, s, storage, rfl⟩ | ⟨-, ordinary⟩
  · rw [sentinel?_sentinelDesc] at hs
    cases hs
  · exact ordinary

theorem WellFormed.sentinel?_of_exact {r : Registry} (wf : r.WellFormed) {d : DescId}
    {desc : Descriptor} (h : r.desc? d = some desc) (hk : desc.kind = .exact) :
    desc.sentinel? = none := by
  rcases wf.form d desc h with ⟨-, s, storage, rfl⟩ | ⟨-, ordinary⟩
  · cases hk
  · exact ordinary.not_sentinel

theorem Ordinary.extent {r : Registry} {desc : Descriptor} (h : r.Ordinary desc)
    (hk : desc.kind ≠ .unbound) :
    desc.offset < desc.stop ∧ desc.stop = desc.offset + desc.size := by
  have valid := h.valid
  simp only [Spec.validExtent, hk, decide_false, Bool.false_or, Bool.and_eq_true,
    decide_eq_true_eq] at valid
  unfold Descriptor.stop
  omega

/-! ## One request -/

/-- A request for a descriptor is refused, answered with an id that is there, or
answered with the next id, which is then added. -/
theorem register_cases (r : Registry) (spec : Spec) :
    (∃ e, r.register spec = (r, .error e)) ∨
    (∃ s, Sentinel.ofVar? spec.base = some s ∧ r.register spec = (r, .ok s.id)) ∨
    (∃ d, Sentinel.ofVar? spec.base = none ∧ r.interned.lookup spec.normalize = some d ∧
      r.register spec = (r, .ok d)) ∨
    (∃ v, r.var? spec.base = some v ∧ Sentinel.ofVar? spec.base = none ∧
      spec.validExtent = true ∧ r.interned.lookup spec.normalize = none ∧
      r.register spec = (r.add spec.normalize v.storage, .ok ⟨r.count⟩)) := by
  unfold register
  split
  · exact Or.inl ⟨_, rfl⟩
  · rename_i v hv
    split
    · rename_i s hs
      exact Or.inr (Or.inl ⟨s, hs, rfl⟩)
    · rename_i hs
      split
      · rename_i valid
        split
        · rename_i d known
          exact Or.inr (Or.inr (Or.inl ⟨d, hs, known, rfl⟩))
        · rename_i unknown
          exact Or.inr (Or.inr (Or.inr ⟨v, hv, hs, valid, unknown, rfl⟩))
      · exact Or.inl ⟨_, rfl⟩

/-- A request leaves the registry as it is, adds a variable, or adds one
descriptor of a declared variable. -/
theorem edit_cases (r : Registry) (e : RegistryEdit) :
    r.edit e = r ∨
    (∃ x : Variable, x.descs = [] ∧ r.edit e = { r with vars := r.vars.push x }) ∨
    (∃ (spec : Spec) (v : Variable), r.var? spec.base = some v ∧
      Sentinel.ofVar? spec.base = none ∧ spec.validExtent = true ∧ spec.normalize = spec ∧
      r.interned.lookup spec = none ∧ r.edit e = r.add spec v.storage) := by
  cases e with
  | declare name storage => exact Or.inr (Or.inl ⟨{ name, storage }, rfl, rfl⟩)
  | register spec =>
    simp only [edit]
    rcases register_cases r spec with ⟨e, h⟩ | ⟨s, -, h⟩ | ⟨d, -, -, h⟩ |
      ⟨v, hv, hs, valid, unknown, h⟩ <;> rw [h]
    · exact Or.inl rfl
    · exact Or.inl rfl
    · exact Or.inl rfl
    · refine Or.inr (Or.inr ⟨spec.normalize, v, ?_, ?_, ?_, spec.normalize_normalize, unknown, rfl⟩)
      · simpa only [Spec.normalize_base] using hv
      · simpa only [Spec.normalize_base] using hs
      · exact Spec.validExtent_normalize valid

theorem var?_add {r : Registry} {spec : Spec} {storage : Storage} {v : VarId} {x : Variable}
    (h : r.var? v = some x) : ∃ y, (r.add spec storage).var? v = some y ∧
      y.storage = x.storage ∧ (∀ d ∈ x.descs, d ∈ y.descs) ∧
      (v = spec.base → ⟨r.descs.size⟩ ∈ y.descs) := by
  simp only [var?, add, Array.getElem?_modify] at h ⊢
  rw [h]
  by_cases hb : spec.base.num = v.num
  · simp +contextual [hb]
  · have : v ≠ spec.base := fun he => hb (he ▸ rfl)
    simp [hb, this]

theorem desc?_add {r : Registry} {spec : Spec} {storage : Storage} {d : DescId}
    {desc : Descriptor} (h : (r.add spec storage).desc? d = some desc) :
    r.desc? d = some desc ∨
      (d = ⟨r.descs.size⟩ ∧ desc = { spec with id := ⟨r.descs.size⟩, storage }) := by
  simp only [desc?, add, Array.getElem?_push] at h ⊢
  split at h
  · rename_i hd
    cases h
    exact Or.inr ⟨by rw [← hd], rfl⟩
  · exact Or.inl h

/-- One request further: variables keep their storage and what they list, and a
descriptor that is new is ordinary and takes the next id. -/
structure Extends (r' r : Registry) : Prop where
  count_le : r.count ≤ r'.count
  keeps : ∀ v x, r.var? v = some x →
    ∃ y, r'.var? v = some y ∧ y.storage = x.storage ∧ ∀ d ∈ x.descs, d ∈ y.descs
  fresh : ∀ d desc, r'.desc? d = some desc →
    r.desc? d = some desc ∨ (d = ⟨r.count⟩ ∧ desc.id = d ∧ r'.Ordinary desc)

theorem WellFormed.extend {r r' : Registry} (wf : r.WellFormed) (h : r'.Extends r) :
    r'.WellFormed := by
  refine ⟨Nat.le_trans wf.sentinels h.count_le, ?_, ?_⟩
  · intro d desc hd
    rcases h.fresh d desc hd with old | ⟨-, hid, -⟩
    · exact wf.id_eq d desc old
    · exact hid
  · intro d desc hd
    rcases h.fresh d desc hd with old | ⟨rfl, -, ordinary⟩
    · rcases wf.form d desc old with sentinel | ⟨hs, ordinary⟩
      · exact Or.inl sentinel
      · obtain ⟨v, hv, storage, listed⟩ := ordinary.declared
        obtain ⟨y, hy, storage', listed'⟩ := h.keeps _ v hv
        exact Or.inr ⟨hs, ordinary.not_sentinel, ordinary.valid, y, hy,
          storage'.trans storage, listed' _ listed⟩
    · have := wf.sentinels
      exact Or.inr ⟨by simpa [DescId.isSentinel] using this, ordinary⟩

theorem extends_edit (r : Registry) (e : RegistryEdit) : (r.edit e).Extends r := by
  rcases edit_cases r e with h | ⟨x, -, h⟩ | ⟨spec, v, hv, hs, valid, -, -, h⟩ <;> rw [h]
  · exact ⟨Nat.le_refl _, fun v x hx => ⟨x, hx, rfl, fun d hd => hd⟩, fun d desc hd => Or.inl hd⟩
  · refine ⟨Nat.le_refl _, ?_, fun d desc hd => Or.inl hd⟩
    intro v y hy
    refine ⟨y, ?_, rfl, fun d hd => hd⟩
    have bound : v.num < r.vars.size := (Array.getElem?_eq_some_iff.mp hy).1
    simpa [var?, Array.getElem?_push, Nat.ne_of_lt bound] using hy
  · refine ⟨by simp [count, add], ?_, ?_⟩
    · intro u x hx
      obtain ⟨y, hy, storage, listed, -⟩ := var?_add hx
      exact ⟨y, hy, storage, listed⟩
    · intro d desc hd
      rcases desc?_add hd with old | ⟨rfl, rfl⟩
      · exact Or.inl old
      · obtain ⟨y, hy, storage, -, listed⟩ := var?_add hv
        exact Or.inr ⟨rfl, rfl, hs, valid, y, hy, storage, listed rfl⟩

theorem desc?_initial {d : DescId} {desc : Descriptor} (h : initial.desc? d = some desc) :
    ∃ s storage, desc = sentinelDesc s storage ∧ d = s.id := by
  obtain ⟨i⟩ := d
  obtain ⟨hi, rfl⟩ := Array.getElem?_eq_some_iff.mp h
  match i, hi with
  | 0, _ => exact ⟨.allMem, .globalVar, rfl, rfl⟩
  | 1, _ => exact ⟨.globalMem, .globalVar, rfl, rfl⟩
  | 2, _ => exact ⟨.importMem, .imported, rfl, rfl⟩

theorem wellFormed_initial : initial.WellFormed := by
  refine ⟨by decide, ?_, ?_⟩
  · intro d desc h
    obtain ⟨s, storage, rfl, rfl⟩ := desc?_initial h
    rfl
  · intro d desc h
    obtain ⟨s, storage, rfl, rfl⟩ := desc?_initial h
    exact Or.inl ⟨by cases s <;> rfl, s, storage, rfl⟩

theorem WellFormed.run {r : Registry} (wf : r.WellFormed) (edits : List RegistryEdit) :
    (r.run edits).WellFormed := by
  induction edits generalizing r with
  | nil => exact wf
  | cons e edits ih => exact ih (wf.extend (extends_edit r e))

/-- **Requests keep a registry well formed**, whether they are granted or not. -/
theorem wellFormed_run (edits : List RegistryEdit) : (initial.run edits).WellFormed :=
  wellFormed_initial.run edits

end Registry

end MemFlow

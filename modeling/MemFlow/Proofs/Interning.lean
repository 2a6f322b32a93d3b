import MemFlow.Proofs.RegistryInvariant

/-!
# One id for each location

A registry keeps four tables that have to agree: the descriptors by id, the
variables with the descriptors listed for each, and the id of every specification
seen. Every request keeps them in agreement, so two requests anywhere in a run are
answered with one id exactly if they are for one location, and an id never changes
what it stands for.
-/

namespace MemFlow

namespace Sentinel

/-- Where the variable of a summary lives. -/
def storage : Sentinel → Storage
  | .allMem | .globalMem => .globalVar
  | .importMem => .imported

theorem ofVar?_eq_none {v : VarId} : ofVar? v = none ↔ DescId.firstOrdinary ≤ v.num := by
  obtain ⟨n⟩ := v
  simp only [ofVar?, VarId.allMem, VarId.globalMem, VarId.importMem, VarId.mk.injEq,
    DescId.firstOrdinary]
  repeat' split
  all_goals simp
  all_goals omega

theorem ofVar?_eq_some {v : VarId} {s : Sentinel} (h : ofVar? v = some s) : v = ⟨s.id.num⟩ := by
  unfold ofVar? at h
  split at h
  · cases h; assumption
  · split at h
    · cases h; assumption
    · split at h
      · cases h; assumption
      · cases h

end Sentinel

/-! ## What a request is for -/

namespace Spec

/-- The variable is one of the three that stand for summaries. -/
def OfSummary (s : Spec) : Prop := s.base ∈ [VarId.allMem, .globalMem, .importMem]

/-- Two requests are for one location: they are about one variable, and unless this
stands for a summary they agree on kind and flags and, if the kind has one, on the
extent. -/
def SameLocation (s t : Spec) : Prop :=
  s.base = t.base ∧ (s.OfSummary ∨
    s.kind = t.kind ∧ s.flags = t.flags ∧
      (s.kind = .unbound ∨ s.offset = t.offset ∧ s.size = t.size))

/-- The specification under which a request is kept: that of the sentinel for a
summary's variable, and otherwise the request without an extent that means nothing. -/
def key (s : Spec) : Spec :=
  match Sentinel.ofVar? s.base with
  | some _ => { base := s.base, kind := .unbound }
  | none => s.normalize

theorem ofSummary_iff {s : Spec} : s.OfSummary ↔ Sentinel.ofVar? s.base ≠ none := by
  obtain ⟨⟨n⟩, kind, offset, size, flags⟩ := s
  simp only [OfSummary, VarId.allMem, VarId.globalMem, VarId.importMem, List.mem_cons,
    VarId.mk.injEq, List.not_mem_nil, or_false, ne_eq, Sentinel.ofVar?_eq_none,
    DescId.firstOrdinary]
  omega

theorem normalize_eq_iff {s t : Spec} (base : s.base = t.base) : s.normalize = t.normalize ↔
    s.kind = t.kind ∧ s.flags = t.flags ∧
      (s.kind = .unbound ∨ s.offset = t.offset ∧ s.size = t.size) := by
  obtain ⟨b, k, o, n, f⟩ := s
  obtain ⟨b', k', o', n', f'⟩ := t
  cases k <;> cases k' <;> simp_all [normalize] <;> grind

@[simp] theorem key_base (s : Spec) : s.key.base = s.base := by
  unfold key
  split
  · rfl
  · exact s.normalize_base

theorem key_eq_iff {s t : Spec} : s.key = t.key ↔ s.SameLocation t := by
  by_cases base : s.base = t.base
  · unfold key SameLocation
    rw [ofSummary_iff, ← base]
    cases Sentinel.ofVar? s.base with
    | none => simp [normalize_eq_iff base, base]
    | some summary => simp
  · refine iff_of_false ?_ (fun same => base same.1)
    intro same
    rw [← s.key_base, same, t.key_base] at base
    exact base rfl

end Spec

/-! ## Tables that agree -/

namespace Registry

variable {r : Registry}

/-- The id is that of a descriptor about the variable, and not of a sentinel. -/
def IsAbout (r : Registry) (d : DescId) (v : VarId) : Prop :=
  DescId.firstOrdinary ≤ d.num ∧ ∃ desc, r.desc? d = some desc ∧ desc.base = v

/-- What the tables of a registry say about each other. -/
structure Canonical (r : Registry) : Prop where
  /-- The sentinels come first. -/
  sentinels : ∀ s : Sentinel, r.desc? s.id = some (sentinelDesc s s.storage)
  /-- Descriptors are numbered by position. -/
  id_eq : ∀ d desc, r.desc? d = some desc → desc.id = d
  /-- Every other descriptor is about a declared variable, with its storage. -/
  declared : ∀ d desc, r.desc? d = some desc → DescId.firstOrdinary ≤ d.num →
    DescId.firstOrdinary ≤ desc.base.num ∧
      ∃ v, r.var? desc.base = some v ∧ v.storage = desc.storage
  /-- An extent has a byte and ends below the address limit, and an access without
  one has none at all. -/
  extents : ∀ d desc, r.desc? d = some desc → DescId.firstOrdinary ≤ d.num →
    (desc.kind = .unbound → desc.offset = 0 ∧ desc.size = 0) ∧
    (desc.kind ≠ .unbound → 0 < desc.size ∧ desc.offset + desc.size < addressLimit)
  /-- No two ids have one specification. -/
  distinct : ∀ d e a b, r.desc? d = some a → r.desc? e = some b → a.toSpec = b.toSpec → d = e
  /-- The specifications seen are those of the descriptors. -/
  interned : ∀ spec d, r.interned.lookup spec = some d ↔
    ∃ desc, r.desc? d = some desc ∧ desc.toSpec = spec
  /-- A variable lists its descriptors once each, and no others. -/
  listed : ∀ v x, r.var? v = some x → x.descs.Nodup ∧ ∀ d, d ∈ x.descs ↔ r.IsAbout d v

/-- The part of the agreement that requests keep on their own; the rest follows from
it and from well-formedness. -/
structure Indexed (r : Registry) : Prop where
  normal : ∀ d desc, r.desc? d = some desc → desc.toSpec.normalize = desc.toSpec
  interned : ∀ spec d, r.interned.lookup spec = some d ↔
    ∃ desc, r.desc? d = some desc ∧ desc.toSpec = spec
  listed : ∀ v x, r.var? v = some x → x.descs.Nodup ∧ ∀ d ∈ x.descs, r.IsAbout d v

theorem desc?_add_iff {spec : Spec} {storage : Storage} {d : DescId} {desc : Descriptor} :
    (r.add spec storage).desc? d = some desc ↔ r.desc? d = some desc ∨
      (d = ⟨r.descs.size⟩ ∧ desc = { spec with id := ⟨r.descs.size⟩, storage }) := by
  refine ⟨desc?_add, ?_⟩
  simp only [desc?, add, Array.getElem?_push]
  rintro (old | ⟨rfl, rfl⟩)
  · have bound : d.num < r.descs.size := (Array.getElem?_eq_some_iff.mp old).1
    rw [if_neg (by omega)]
    exact old
  · simp

theorem var?_add_cases {spec : Spec} {storage : Storage} {v : VarId} {y : Variable}
    (h : (r.add spec storage).var? v = some y) : ∃ x, r.var? v = some x ∧
      (y.descs = x.descs ∨ v = spec.base ∧ y.descs = x.descs ++ [⟨r.descs.size⟩]) := by
  simp only [var?, add, Array.getElem?_modify] at h ⊢
  split at h
  · rename_i base
    obtain ⟨x, hx, rfl⟩ := Option.map_eq_some_iff.mp h
    obtain rfl : spec.base = v := by
      cases v
      cases hb : spec.base
      simp_all
    exact ⟨x, hx, Or.inr ⟨rfl, rfl⟩⟩
  · exact ⟨y, h, Or.inl rfl⟩

theorem num_lt_of_desc? {d : DescId} {desc : Descriptor} (h : r.desc? d = some desc) :
    d.num < r.descs.size := (Array.getElem?_eq_some_iff.mp h).1

theorem Indexed.add (ix : r.Indexed) (wf : r.WellFormed) {spec : Spec} (storage : Storage)
    (normal : spec.normalize = spec) (unknown : r.interned.lookup spec = none) :
    (r.add spec storage).Indexed := by
  have size : DescId.firstOrdinary ≤ r.descs.size := wf.sentinels
  have keeps : ∀ v d, r.IsAbout d v → (r.add spec storage).IsAbout d v := by
    rintro v d ⟨ordinary, desc, hd, base⟩
    exact ⟨ordinary, desc, desc?_add_iff.mpr (Or.inl hd), base⟩
  constructor
  · intro d desc hd
    rcases desc?_add hd with old | ⟨-, rfl⟩
    · exact ix.normal d desc old
    · exact normal
  · intro asked d
    by_cases new : asked = spec
    · subst new
      simp only [Registry.add, List.lookup_cons_self, Option.some.injEq]
      constructor
      · rintro rfl
        exact ⟨_, desc?_add_iff.mpr (Or.inr ⟨rfl, rfl⟩), rfl⟩
      · rintro ⟨desc, hd, hspec⟩
        rcases desc?_add hd with old | ⟨rfl, -⟩
        · -- The specification would have been seen before.
          rw [(ix.interned asked d).mpr ⟨desc, old, hspec⟩] at unknown
          cases unknown
        · rfl
    · have later : (r.add spec storage).interned.lookup asked = r.interned.lookup asked := by
        simp only [Registry.add, List.lookup_cons, beq_false_of_ne new]
      rw [later, ix.interned]
      constructor
      · rintro ⟨desc, hd, hspec⟩
        exact ⟨desc, desc?_add_iff.mpr (Or.inl hd), hspec⟩
      · rintro ⟨desc, hd, rfl⟩
        rcases desc?_add hd with old | ⟨-, rfl⟩
        · exact ⟨desc, old, rfl⟩
        · exact absurd rfl new
  · intro v y hy
    obtain ⟨x, hx, listed | ⟨rfl, listed⟩⟩ := var?_add_cases hy
    · obtain ⟨nodup, members⟩ := ix.listed v x hx
      rw [listed]
      exact ⟨nodup, fun d hd => keeps v d (members d hd)⟩
    · obtain ⟨nodup, members⟩ := ix.listed spec.base x hx
      have fresh : ⟨r.descs.size⟩ ∉ x.descs := by
        intro hd
        obtain ⟨-, desc, found, -⟩ := members _ hd
        exact Nat.lt_irrefl _ (num_lt_of_desc? found)
      rw [listed]
      refine ⟨?_, ?_⟩
      · rw [List.nodup_append]
        refine ⟨nodup, by simp, ?_⟩
        intro d hd e he
        rw [List.mem_singleton.mp he]
        exact fun same => fresh (same ▸ hd)
      · intro d hd
        rcases List.mem_append.mp hd with hd | hd
        · exact keeps _ d (members d hd)
        · rw [List.mem_singleton.mp hd]
          exact ⟨size, _, desc?_add_iff.mpr (Or.inr ⟨rfl, rfl⟩), rfl⟩

theorem Indexed.edit (ix : r.Indexed) (wf : r.WellFormed) (e : RegistryEdit) :
    (r.edit e).Indexed := by
  rcases edit_cases r e with h | ⟨x, empty, h⟩ | ⟨spec, v, -, -, -, normal, unknown, h⟩ <;> rw [h]
  · exact ix
  · refine ⟨ix.normal, ix.interned, ?_⟩
    intro v y hy
    simp only [var?, Array.getElem?_push] at hy
    split at hy
    · cases hy
      simp [empty]
    · exact ix.listed v y hy
  · exact ix.add wf v.storage normal unknown

theorem indexed_initial : initial.Indexed := by
  constructor
  · intro d desc h
    obtain ⟨s, storage, rfl, -⟩ := desc?_initial h
    rfl
  · intro spec d
    constructor
    · intro h
      simp only [initial, List.lookup_cons, List.lookup_nil] at h
      repeat' split at h
      all_goals cases h
      all_goals rename_i found
      all_goals exact ⟨_, rfl, (eq_of_beq found).symm⟩
    · rintro ⟨desc, h, rfl⟩
      obtain ⟨s, storage, rfl, rfl⟩ := desc?_initial h
      cases s <;> rfl
  · intro v x h
    obtain ⟨i⟩ := v
    obtain ⟨hi, rfl⟩ := Array.getElem?_eq_some_iff.mp h
    match i, hi with
    | 0, _ | 1, _ | 2, _ => exact ⟨List.nodup_nil, fun d hd => by cases hd⟩

theorem Indexed.run (ix : r.Indexed) (wf : r.WellFormed) (edits : List RegistryEdit) :
    (r.run edits).Indexed := by
  induction edits generalizing r with
  | nil => exact ix
  | cons e edits ih => exact ih (ix.edit wf e) (wf.extend (extends_edit r e))

/-! ## Ids keep their meaning -/

theorem desc?_edit {d : DescId} {desc : Descriptor} (h : r.desc? d = some desc)
    (e : RegistryEdit) : (r.edit e).desc? d = some desc := by
  rcases edit_cases r e with he | ⟨x, -, he⟩ | ⟨spec, v, -, -, -, -, -, he⟩ <;> rw [he]
  · exact h
  · exact h
  · exact desc?_add_iff.mpr (Or.inl h)

theorem desc?_run {d : DescId} {desc : Descriptor} (h : r.desc? d = some desc)
    (edits : List RegistryEdit) : (r.run edits).desc? d = some desc := by
  induction edits generalizing r with
  | nil => exact h
  | cons e edits ih => exact ih (desc?_edit h e)

theorem WellFormed.ordinary_of_le (wf : r.WellFormed) {d : DescId} {desc : Descriptor}
    (h : r.desc? d = some desc) (hd : DescId.firstOrdinary ≤ d.num) : r.Ordinary desc := by
  rcases wf.form d desc h with ⟨sentinel, -⟩ | ⟨-, ordinary⟩
  · have : d.num < DescId.firstOrdinary := by simpa [DescId.isSentinel] using sentinel
    omega
  · exact ordinary

theorem Indexed.extent_of_normal (ix : r.Indexed) {d : DescId} {desc : Descriptor}
    (h : r.desc? d = some desc) (hk : desc.kind = .unbound) :
    desc.offset = 0 ∧ desc.size = 0 := by
  have normal := ix.normal d desc h
  simp only [Spec.normalize, hk] at normal
  exact ⟨(congrArg Spec.offset normal).symm, (congrArg Spec.size normal).symm⟩

/-- **The tables agree after every run of requests.** -/
theorem canonical_run (edits : List RegistryEdit) : (initial.run edits).Canonical := by
  have wf := wellFormed_run edits
  have ix := indexed_initial.run wellFormed_initial edits
  constructor
  · intro s
    exact desc?_run (by cases s <;> rfl) edits
  · exact wf.id_eq
  · intro d desc h hd
    have ordinary := wf.ordinary_of_le h hd
    obtain ⟨v, hv, storage, -⟩ := ordinary.declared
    exact ⟨Sentinel.ofVar?_eq_none.mp ordinary.not_sentinel, v, hv, storage⟩
  · intro d desc h hd
    refine ⟨ix.extent_of_normal h, ?_⟩
    intro hk
    simpa [Spec.validExtent, hk] using (wf.ordinary_of_le h hd).valid
  · intro d e a b ha hb same
    have first := (ix.interned a.toSpec d).mpr ⟨a, ha, rfl⟩
    have second := (ix.interned a.toSpec e).mpr ⟨b, hb, same.symm⟩
    exact Option.some.inj (first.symm.trans second)
  · exact ix.interned
  · intro v x hx
    obtain ⟨nodup, members⟩ := ix.listed v x hx
    refine ⟨nodup, fun d => ⟨members d, ?_⟩⟩
    rintro ⟨hd, desc, h, rfl⟩
    obtain ⟨y, hy, -, listed⟩ := (wf.ordinary_of_le h hd).declared
    rw [hx] at hy
    cases hy
    exact wf.id_eq d desc h ▸ listed

/-! ## Answers -/

theorem register_granted (can : r.Canonical) {spec : Spec} {d : DescId}
    (h : (r.register spec).2 = .ok d) :
    ∃ desc, (r.register spec).1.desc? d = some desc ∧ desc.toSpec = spec.key := by
  rcases register_cases r spec with ⟨e, he⟩ | ⟨s, hs, he⟩ | ⟨c, hs, known, he⟩ |
    ⟨v, -, hs, -, -, he⟩
  all_goals rw [he] at h ⊢; cases h
  · exact ⟨_, can.sentinels s, by rw [Spec.key, hs, Sentinel.ofVar?_eq_some hs]; rfl⟩
  · obtain ⟨desc, found, hspec⟩ := (can.interned _ _).mp known
    exact ⟨desc, found, by rw [hspec, Spec.key, hs]⟩
  · exact ⟨_, desc?_add_iff.mpr (Or.inr ⟨rfl, rfl⟩), by rw [Spec.key, hs]⟩

theorem register_refused {spec : Spec} {e : RegistryError}
    (h : (r.register spec).2 = .error e) : (r.register spec).1 = r := by
  rcases register_cases r spec with ⟨e, he⟩ | ⟨s, -, he⟩ | ⟨c, -, -, he⟩ | ⟨v, -, -, -, -, he⟩
  all_goals rw [he] at h ⊢
  all_goals cases h

/-- In a run of requests, the one at position `i` asks for `spec` and is answered
with `d`. -/
def Granted (edits : List RegistryEdit) (i : Nat) (spec : Spec) (d : DescId) : Prop :=
  edits[i]? = some (.register spec) ∧ ((initial.run (edits.take i)).register spec).2 = .ok d

theorem run_take_succ {edits : List RegistryEdit} {i : Nat} {e : RegistryEdit}
    (h : edits[i]? = some e) (r : Registry) :
    r.run (edits.take (i + 1)) = (r.run (edits.take i)).edit e := by
  rw [List.take_add_one, h, run, List.foldl_append]
  rfl

theorem Granted.stands {edits : List RegistryEdit} {i : Nat} {spec : Spec} {d : DescId}
    (h : Granted edits i spec d) :
    ∃ desc, desc.toSpec = spec.key ∧
      ∀ j, i < j → (initial.run (edits.take j)).desc? d = some desc := by
  obtain ⟨asked, answered⟩ := h
  obtain ⟨desc, found, hspec⟩ := register_granted (canonical_run _) answered
  refine ⟨desc, hspec, ?_⟩
  intro j hj
  obtain ⟨k, rfl⟩ := Nat.exists_eq_add_of_lt hj
  have later : edits.take (i + k + 1) =
      edits.take (i + 1) ++ (edits.drop (i + 1)).take k := by
    rw [show i + k + 1 = (i + 1) + k by omega, List.take_add]
  rw [later, run, List.foldl_append]
  apply desc?_run
  have next := run_take_succ asked initial
  rw [run] at next
  rw [next]
  exact found

theorem Granted.eq_iff {edits : List RegistryEdit} {i j : Nat} {s t : Spec} {d e : DescId}
    (hs : Granted edits i s d) (ht : Granted edits j t e) : d = e ↔ s.SameLocation t := by
  obtain ⟨a, ha, first⟩ := hs.stands
  obtain ⟨b, hb, second⟩ := ht.stands
  -- Both answers stand once both requests have been made.
  have found_a := first (max i j + 1) (by omega)
  have found_b := second (max i j + 1) (by omega)
  rw [← Spec.key_eq_iff, ← ha, ← hb]
  constructor
  · rintro rfl
    rw [Option.some.inj (found_a.symm.trans found_b)]
  · intro same
    exact (canonical_run _).distinct d e a b found_a found_b same

end Registry

/-- **One id for each location.** After every run of requests, granted or refused,
the tables of the registry agree. Two requests anywhere in a run are answered with
one id exactly if they are for one location, an id that was answered stands for one
descriptor from then on, and a request that is refused changes nothing. -/
theorem registry_stays_canonical (edits : List RegistryEdit) :
    (Registry.initial.run edits).Canonical ∧
    (∀ i j s t d e, Registry.Granted edits i s d → Registry.Granted edits j t e →
      (d = e ↔ s.SameLocation t)) ∧
    (∀ i s d, Registry.Granted edits i s d → ∃ desc, desc.toSpec = s.key ∧
      ∀ j, i < j → (Registry.initial.run (edits.take j)).desc? d = some desc) ∧
    (∀ i s err, edits[i]? = some (.register s) →
      ((Registry.initial.run (edits.take i)).register s).2 = .error err →
      Registry.initial.run (edits.take (i + 1)) = Registry.initial.run (edits.take i)) := by
  refine ⟨Registry.canonical_run edits, ?_, fun i s d h => h.stands, ?_⟩
  · intro i j s t d e hs ht
    exact hs.eq_iff ht
  · intro i s err asked refused
    rw [Registry.run_take_succ asked]
    exact Registry.register_refused refused

/-- A variable is asked about as a whole twice, with a request that is refused and one
about a part of it in between. -/
def inquiries : List RegistryEdit :=
  [.declare "x" .localVar, .register { base := ⟨3⟩, kind := .unbound, offset := 8, size := 1 },
    .register { base := ⟨3⟩, kind := .exact }, .register { base := ⟨3⟩, kind := .exact, size := 4 },
    .register { base := ⟨3⟩, kind := .unbound }]

/-- The two requests for the whole get one id, the request for the part another, and the
refused one leaves the registry as it was. -/
theorem inquiries_answered :
    let part : Spec := { base := ⟨3⟩, kind := .exact, size := 4 }
    let whole : Spec := { base := ⟨3⟩, kind := .unbound }
    Registry.Granted inquiries 1 { whole with offset := 8, size := 1 } ⟨3⟩ ∧
    Registry.Granted inquiries 3 part ⟨4⟩ ∧ Registry.Granted inquiries 4 whole ⟨3⟩ ∧
    Spec.SameLocation { whole with offset := 8, size := 1 } whole ∧ ¬ part.SameLocation whole ∧
    Registry.initial.run (inquiries.take 3) = Registry.initial.run (inquiries.take 2) := by
  intro part whole
  obtain ⟨-, one_id, -, unchanged⟩ := registry_stays_canonical inquiries
  have first : Registry.Granted inquiries 1 { whole with offset := 8, size := 1 } ⟨3⟩ :=
    ⟨rfl, rfl⟩
  have second : Registry.Granted inquiries 3 part ⟨4⟩ := ⟨rfl, rfl⟩
  have third : Registry.Granted inquiries 4 whole ⟨3⟩ := ⟨rfl, rfl⟩
  refine ⟨first, second, third, (one_id _ _ _ _ _ _ first third).mp rfl, ?_, ?_⟩
  · intro same
    have := (one_id _ _ _ _ _ _ second third).mpr same
    exact absurd this (by decide)
  · exact unchanged 2 _ (.badExtent ⟨3⟩ 0 0) rfl rfl

end MemFlow

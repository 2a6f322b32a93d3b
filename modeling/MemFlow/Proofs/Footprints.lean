import Mathlib.Data.Set.Finite.Basic
import MemFlow.Proofs.Executions

/-!
# Relations between descriptors are relations between bytes

Overlap, covering and overwriting are decided from two descriptors alone, by comparing
storage classes, variables and extents. In a memory where every storage class has variables
that no request has named, the answers are right: descriptors overlap exactly if they share a
byte, and one covers another exactly if it has all the bytes of the other. A summary has bytes
beyond any single variable, and an extent ends before the last byte of its variable, so
neither is ever covered by less than itself.
-/

namespace MemFlow

/-! ## Memory with room -/

theorem addressLimit_pos : 0 < addressLimit := by decide

/-- The first byte of a variable. -/
def Byte.first (v : VarId) : Byte := ⟨v, 0, addressLimit_pos⟩

/-- The last byte of a variable. -/
def Byte.last (v : VarId) : Byte := ⟨v, addressLimit - 1, by decide⟩

namespace Layout

variable {r : Registry} {l : Layout r}

/-- Every storage class has infinitely many variables. -/
def Ample (l : Layout r) : Prop := ∀ c : Storage, {v | l.storage v = c}.Infinite

/-- No variable has all the bytes of a storage class. -/
theorem Ample.exists_byte (ample : l.Ample) (c : Storage) (v : VarId) :
    ∃ x : Byte, l.storage x.var = c ∧ x.var ≠ v := by
  obtain ⟨w, of_class, other⟩ := (ample c).exists_notMem_finset {v}
  exact ⟨.first w, of_class, fun same => other (Finset.mem_singleton.mpr same)⟩

end Layout

/-- The storage classes in turn. -/
def Storage.inTurn (n : Nat) : Storage :=
  match n % 3 with
  | 0 => .localVar
  | 1 => .globalVar
  | _ => .imported

theorem Storage.forall_iff {p : Storage → Prop} :
    (∀ c, p c) ↔ p .localVar ∧ p .globalVar ∧ p .imported := by
  constructor
  · intro h
    exact ⟨h _, h _, h _⟩
  · rintro ⟨hl, hg, hi⟩ c
    cases c <;> assumption

theorem Storage.exists_inTurn (c : Storage) : ∃ i, ∀ n, inTurn (3 * n + i) = c := by
  cases c with
  | localVar => exact ⟨0, fun n => by simp [inTurn]⟩
  | globalVar => exact ⟨1, fun n => by simp [inTurn]⟩
  | imported => exact ⟨2, fun n => by simp [inTurn]⟩

/-- A memory for any registry: undeclared variables belong to the storage classes in turn. -/
def Registry.spread (r : Registry) : Layout r where
  storage v := (r.var? v).elim (Storage.inTurn v.num) (·.storage)
  agrees v x h := by simp [h]

theorem Registry.ample_spread (r : Registry) : r.spread.Ample := by
  intro c
  obtain ⟨i, turn⟩ := c.exists_inTurn
  -- Every third variable beyond those declared is of the class.
  apply Set.infinite_of_injective_forall_mem (f := fun k => VarId.mk (3 * (r.vars.size + k) + i))
  · intro j k same
    simp only [VarId.mk.injEq] at same
    omega
  · intro k
    have undeclared : r.var? ⟨3 * (r.vars.size + k) + i⟩ = none := by
      simp only [var?, Array.getElem?_eq_none_iff]
      omega
    change (r.var? _).elim _ _ = c
    rw [undeclared]
    exact turn _

/-! ## The bytes of one descriptor -/

theorem Descriptor.mem_of_imported {desc : Descriptor} {s : Sentinel}
    (hs : desc.sentinel? = some s) {storage : VarId → Storage} {x : Byte}
    (imported : storage x.var = .imported) : x ∈ desc.footprint storage := by
  rw [mem_footprint_sentinel hs, imported]
  cases s <;> rfl

theorem Descriptor.stop_lt (desc : Descriptor) : desc.stop < addressLimit := by
  have positive := addressLimit_pos
  unfold stop
  omega

namespace Registry

variable {r : Registry} {l : Layout r} {a b : Descriptor}

theorem Ordinary.mem_extent (h : r.Ordinary a) (storage : VarId → Storage) {o : Nat}
    (start : a.offset ≤ o) (stop : o < a.stop) :
    ⟨a.base, o, stop.trans a.stop_lt⟩ ∈ a.footprint storage :=
  (h.mem_footprint storage _).mpr ⟨rfl, Or.inr ⟨start, stop⟩⟩

theorem Ordinary.nonempty (h : r.Ordinary a) (storage : VarId → Storage) :
    (a.footprint storage).Nonempty := by
  by_cases unbound : a.kind = .unbound
  · exact ⟨.first a.base, (h.mem_footprint storage _).mpr ⟨rfl, Or.inl unbound⟩⟩
  · obtain ⟨extent, -⟩ := h.extent unbound
    exact ⟨_, h.mem_extent storage (Nat.le_refl _) extent⟩

theorem WellFormed.nonempty (wf : r.WellFormed) (ample : l.Ample) {d : DescId}
    (h : r.desc? d = some a) : (a.footprint l.storage).Nonempty := by
  cases hs : a.sentinel? with
  | some s =>
    obtain ⟨x, imported, -⟩ := ample.exists_byte .imported a.base
    exact ⟨x, Descriptor.mem_of_imported hs imported⟩
  | none => exact (wf.ordinary h hs).nonempty l.storage

/-! ## Overlap -/

theorem Ordinary.shared (ha : r.Ordinary a) (hb : r.Ordinary b) (storage : VarId → Storage)
    (h : a.overlaps b = true) : (a.footprint storage ∩ b.footprint storage).Nonempty := by
  simp only [Descriptor.overlaps, ha.not_sentinel, hb.not_sentinel, Bool.and_eq_true,
    Bool.or_eq_true, decide_eq_true_eq] at h
  obtain ⟨base, extents⟩ := h
  by_cases whole_a : a.kind = .unbound
  · obtain ⟨x, hx⟩ := hb.nonempty storage
    have var := ((hb.mem_footprint storage x).mp hx).1
    exact ⟨x, (ha.mem_footprint storage x).mpr ⟨var.trans base.symm, Or.inl whole_a⟩, hx⟩
  · by_cases whole_b : b.kind = .unbound
    · obtain ⟨x, hx⟩ := ha.nonempty storage
      have var := ((ha.mem_footprint storage x).mp hx).1
      exact ⟨x, hx, (hb.mem_footprint storage x).mpr ⟨var.trans base, Or.inl whole_b⟩⟩
    · -- The later of the two starts is in both extents.
      obtain ⟨extent_a, -⟩ := ha.extent whole_a
      obtain ⟨extent_b, -⟩ := hb.extent whole_b
      have order : a.offset < b.stop ∧ b.offset < a.stop := by tauto
      have in_a : max a.offset b.offset < a.stop := by omega
      have in_b : max a.offset b.offset < b.stop := by omega
      refine ⟨_, ha.mem_extent storage (Nat.le_max_left _ _) in_a, ?_⟩
      rw [hb.mem_footprint]
      exact ⟨base, Or.inr ⟨Nat.le_max_right _ _, in_b⟩⟩

theorem shared_of_includes (hb : r.Ordinary b) {s : Sentinel} (hs : a.sentinel? = some s)
    (h : s.includes b.storage = true) :
    (a.footprint l.storage ∩ b.footprint l.storage).Nonempty := by
  obtain ⟨x, hx⟩ := hb.nonempty l.storage
  refine ⟨x, ?_, hx⟩
  rw [Descriptor.mem_footprint_sentinel hs, l.storage_of_mem hb hx]
  exact h

theorem WellFormed.overlaps_iff (wf : r.WellFormed) (ample : l.Ample) {d e : DescId}
    (ha : r.desc? d = some a) (hb : r.desc? e = some b) :
    a.overlaps b = true ↔ (a.footprint l.storage ∩ b.footprint l.storage).Nonempty := by
  constructor
  · intro h
    cases sa : a.sentinel? with
    | some s =>
      cases sb : b.sentinel? with
      | some t =>
        obtain ⟨x, imported, -⟩ := ample.exists_byte .imported a.base
        exact ⟨x, Descriptor.mem_of_imported sa imported, Descriptor.mem_of_imported sb imported⟩
      | none =>
        simp only [Descriptor.overlaps, sa, sb] at h
        exact shared_of_includes (wf.ordinary hb sb) sa h
    | none =>
      cases sb : b.sentinel? with
      | some t =>
        simp only [Descriptor.overlaps, sa, sb] at h
        rw [Set.inter_comm]
        exact shared_of_includes (wf.ordinary ha sa) sb h
      | none => exact (wf.ordinary ha sa).shared (wf.ordinary hb sb) l.storage h
  · rintro ⟨x, hxa, hxb⟩
    exact wf.overlaps_of_mem ha hb l hxa hxb

/-! ## Covering -/

theorem covers_sentinels {s t : Sentinel} (sa : a.sentinel? = some s) (sb : b.sentinel? = some t) :
    a.covers b = true ↔ ∀ c, t.includes c = true → s.includes c = true := by
  unfold Descriptor.covers
  rw [sa, sb, Storage.forall_iff]
  cases s <;> cases t <;> simp [Sentinel.includes, Storage.isGlobal]

theorem subset_sentinels (ample : l.Ample) {s t : Sentinel} (sa : a.sentinel? = some s)
    (sb : b.sentinel? = some t) :
    b.footprint l.storage ⊆ a.footprint l.storage ↔
      ∀ c, t.includes c = true → s.includes c = true := by
  constructor
  · intro subset c hc
    obtain ⟨x, rfl, -⟩ := ample.exists_byte c a.base
    rw [← Descriptor.mem_footprint_sentinel sa]
    exact subset ((Descriptor.mem_footprint_sentinel sb _ x).mpr hc)
  · intro h x hx
    rw [Descriptor.mem_footprint_sentinel sb] at hx
    rw [Descriptor.mem_footprint_sentinel sa]
    exact h _ hx

theorem covers_of_sentinel {s : Sentinel} (sa : a.sentinel? = some s) (sb : b.sentinel? = none) :
    a.covers b = s.includes b.storage := by
  unfold Descriptor.covers
  rw [sa, sb]
  cases s <;> rfl

theorem Ordinary.subset_sentinel (hb : r.Ordinary b) {s : Sentinel} (sa : a.sentinel? = some s) :
    b.footprint l.storage ⊆ a.footprint l.storage ↔ s.includes b.storage = true := by
  constructor
  · intro subset
    obtain ⟨x, hx⟩ := hb.nonempty l.storage
    rw [← l.storage_of_mem hb hx, ← Descriptor.mem_footprint_sentinel sa]
    exact subset hx
  · intro h x hx
    rw [Descriptor.mem_footprint_sentinel sa, l.storage_of_mem hb hx]
    exact h

theorem covers_sentinel_of_ordinary {t : Sentinel} (sa : a.sentinel? = none)
    (sb : b.sentinel? = some t) : a.covers b = false := by
  unfold Descriptor.covers
  rw [sa, sb]
  cases t <;> rfl

theorem Ordinary.not_subset (ha : r.Ordinary a) (ample : l.Ample) {t : Sentinel}
    (sb : b.sentinel? = some t) : ¬ b.footprint l.storage ⊆ a.footprint l.storage := by
  intro subset
  obtain ⟨x, imported, other⟩ := ample.exists_byte .imported a.base
  have hx := subset (Descriptor.mem_of_imported sb imported)
  exact other ((ha.mem_footprint l.storage x).mp hx).1

/-- An extent ends before the last byte of its variable. -/
theorem Ordinary.last_not_mem (h : r.Ordinary a) (storage : VarId → Storage)
    (bound : a.kind ≠ .unbound) (v : VarId) : Byte.last v ∉ a.footprint storage := by
  intro last
  have inside := (((h.mem_footprint storage _).mp last).2.resolve_left bound).2
  have stop := a.stop_lt
  simp only [Byte.last] at inside
  omega

/-- A descriptor with the bytes of another that has an extent starts no later and stops no
earlier. -/
theorem Ordinary.extent_subset (ha : r.Ordinary a) (hb : r.Ordinary b)
    (storage : VarId → Storage) (bound : a.kind ≠ .unbound)
    (subset : b.footprint storage ⊆ a.footprint storage) :
    b.kind ≠ .unbound ∧ a.offset ≤ b.offset ∧ b.stop ≤ a.stop := by
  have inside : ∀ {x}, x ∈ b.footprint storage → a.offset ≤ x.offset ∧ x.offset < a.stop :=
    fun hx => ((ha.mem_footprint storage _).mp (subset hx)).2.resolve_left bound
  have bound' : b.kind ≠ .unbound := by
    intro unbound
    have last : Byte.last b.base ∈ b.footprint storage :=
      (hb.mem_footprint storage _).mpr ⟨rfl, Or.inl unbound⟩
    exact ha.last_not_mem storage bound _ (subset last)
  obtain ⟨extent, -⟩ := hb.extent bound'
  have first := (inside (hb.mem_extent storage (Nat.le_refl _) extent)).1
  have final : b.stop - 1 < b.stop := by omega
  have last := (inside (hb.mem_extent storage (by omega) final)).2
  refine ⟨bound', first, ?_⟩
  simp only at last
  omega

theorem Ordinary.covers_iff (ha : r.Ordinary a) (hb : r.Ordinary b)
    (storage : VarId → Storage) :
    a.covers b = true ↔ b.footprint storage ⊆ a.footprint storage := by
  simp only [Descriptor.covers, ha.not_sentinel, hb.not_sentinel, Bool.and_eq_true,
    Bool.or_eq_true, decide_eq_true_eq, and_assoc]
  constructor
  · rintro ⟨base, contained⟩ x hx
    rw [hb.mem_footprint] at hx
    rw [ha.mem_footprint]
    refine ⟨hx.1.trans base.symm, ?_⟩
    rcases contained with unbound | ⟨bound, start, stop⟩
    · exact Or.inl unbound
    · have within := hx.2.resolve_left bound
      exact Or.inr ⟨by omega, by omega⟩
  · intro subset
    obtain ⟨x, hx⟩ := hb.nonempty storage
    have var_b := ((hb.mem_footprint storage x).mp hx).1
    have var_a := ((ha.mem_footprint storage x).mp (subset hx)).1
    refine ⟨var_a.symm.trans var_b, ?_⟩
    by_cases unbound : a.kind = .unbound
    · exact Or.inl unbound
    · exact Or.inr (ha.extent_subset hb storage unbound subset)

theorem WellFormed.covers_iff (wf : r.WellFormed) (ample : l.Ample) {d e : DescId}
    (ha : r.desc? d = some a) (hb : r.desc? e = some b) :
    a.covers b = true ↔ b.footprint l.storage ⊆ a.footprint l.storage := by
  cases sa : a.sentinel? with
  | some s =>
    cases sb : b.sentinel? with
    | some t => rw [covers_sentinels sa sb, subset_sentinels ample sa sb]
    | none => rw [covers_of_sentinel sa sb, (wf.ordinary hb sb).subset_sentinel sa]
  | none =>
    have ordinary := wf.ordinary ha sa
    cases sb : b.sentinel? with
    | some t =>
      rw [covers_sentinel_of_ordinary sa sb]
      exact iff_of_false Bool.false_ne_true (ordinary.not_subset ample sb)
    | none => exact ordinary.covers_iff (wf.ordinary hb sb) l.storage

/-! ## Overwriting -/

/-- Overwriting is covering between writes that are certain. -/
theorem WellFormed.overwrites_iff_covers (wf : r.WellFormed) {d e : DescId}
    (ha : r.desc? d = some a) (hb : r.desc? e = some b) :
    a.overwrites b = true ↔
      (a.kind = .exact ∧ a.flags.mayOnly = false) ∧ (b.kind = .exact ∧ b.flags.mayOnly = false) ∧
        a.covers b = true := by
  simp only [Descriptor.overwrites, Descriptor.isDefinite, Descriptor.isExact, Bool.and_eq_true,
    Bool.not_eq_true', decide_eq_true_eq, and_assoc]
  constructor
  · rintro ⟨exact_a, certain_a, exact_b, certain_b, contained⟩
    have sa := wf.sentinel?_of_exact ha exact_a
    have sb := wf.sentinel?_of_exact hb exact_b
    refine ⟨exact_a, certain_a, exact_b, certain_b, ?_⟩
    simp [Descriptor.covers, sa, sb, exact_b, contained]
  · rintro ⟨exact_a, certain_a, exact_b, certain_b, covers⟩
    have sa := wf.sentinel?_of_exact ha exact_a
    have sb := wf.sentinel?_of_exact hb exact_b
    refine ⟨exact_a, certain_a, exact_b, certain_b, ?_⟩
    simpa [Descriptor.covers, sa, sb, exact_a, exact_b, and_assoc] using covers

end Registry

/-! ## Both sides agree -/

/-- The relations between two descriptors are those between their bytes. -/
structure Descriptor.AgreeOnBytes (storage : VarId → Storage) (a b : Descriptor) : Prop where
  overlaps : a.overlaps b = true ↔ (a.footprint storage ∩ b.footprint storage).Nonempty
  covers : a.covers b = true ↔ b.footprint storage ⊆ a.footprint storage
  overwrites : a.overwrites b = true ↔
    (a.kind = .exact ∧ a.flags.mayOnly = false) ∧ (b.kind = .exact ∧ b.flags.mayOnly = false) ∧
      b.footprint storage ⊆ a.footprint storage

namespace Registry

variable {r : Registry} {l : Layout r}

/-- What sets of bytes make of the relations: overlap is reflexive and symmetric, covering is
a preorder, and each relation implies the next weaker one. -/
structure RelationLaws (r : Registry) : Prop where
  overlaps_refl : ∀ a ∈ r.descs, a.overlaps a = true
  overlaps_symm : ∀ a ∈ r.descs, ∀ b ∈ r.descs, a.overlaps b = true → b.overlaps a = true
  covers_refl : ∀ a ∈ r.descs, a.covers a = true
  covers_trans : ∀ a ∈ r.descs, ∀ b ∈ r.descs, ∀ c ∈ r.descs,
    a.covers b = true → b.covers c = true → a.covers c = true
  covers_of_overwrites : ∀ a ∈ r.descs, ∀ b ∈ r.descs, a.overwrites b = true → a.covers b = true
  overlaps_of_covers : ∀ a ∈ r.descs, ∀ b ∈ r.descs, a.covers b = true → a.overlaps b = true

theorem WellFormed.agreeOnBytes (wf : r.WellFormed) (ample : l.Ample) {a b : Descriptor}
    (ha : a ∈ r.descs) (hb : b ∈ r.descs) : Descriptor.AgreeOnBytes l.storage a b := by
  obtain ⟨d, hd⟩ := mem_descs_iff.mp ha
  obtain ⟨e, he⟩ := mem_descs_iff.mp hb
  have covers := wf.covers_iff ample hd he
  exact ⟨wf.overlaps_iff ample hd he, covers, by rw [wf.overwrites_iff_covers hd he, covers]⟩

theorem WellFormed.relationLaws (wf : r.WellFormed) (ample : l.Ample) : r.RelationLaws := by
  have nonempty : ∀ a ∈ r.descs, (a.footprint l.storage).Nonempty := by
    intro a ha
    obtain ⟨d, hd⟩ := mem_descs_iff.mp ha
    exact wf.nonempty ample hd
  constructor
  · intro a ha
    rw [(wf.agreeOnBytes ample ha ha).overlaps, Set.inter_self]
    exact nonempty a ha
  · intro a ha b hb h
    rw [(wf.agreeOnBytes ample hb ha).overlaps, Set.inter_comm]
    exact (wf.agreeOnBytes ample ha hb).overlaps.mp h
  · intro a ha
    exact (wf.agreeOnBytes ample ha ha).covers.mpr subset_rfl
  · intro a ha b hb c hc hab hbc
    have first := (wf.agreeOnBytes ample ha hb).covers.mp hab
    have second := (wf.agreeOnBytes ample hb hc).covers.mp hbc
    exact (wf.agreeOnBytes ample ha hc).covers.mpr (second.trans first)
  · intro a ha b hb h
    have agree := wf.agreeOnBytes ample ha hb
    exact agree.covers.mpr (agree.overwrites.mp h).2.2
  · intro a ha b hb h
    have agree := wf.agreeOnBytes ample ha hb
    obtain ⟨x, hx⟩ := nonempty b hb
    exact agree.overlaps.mpr ⟨x, agree.covers.mp h hx, hx⟩

end Registry

/-- **The relations mean what the bytes say.** In every registry that requests lead to, and in
every memory that agrees with it and has infinitely many variables of each storage class, two
registered descriptors overlap exactly if they share a byte, and one covers the other exactly
if it has all the bytes of the other. It overwrites the other exactly if moreover both are
certain writes of a known extent. So the relations obey the laws of sets of bytes. -/
theorem relations_mean_bytes (edits : List RegistryEdit)
    (l : Layout (Registry.initial.run edits)) (ample : l.Ample) :
    (∀ a ∈ (Registry.initial.run edits).descs, ∀ b ∈ (Registry.initial.run edits).descs,
      Descriptor.AgreeOnBytes l.storage a b) ∧
    (Registry.initial.run edits).RelationLaws := by
  have wf := Registry.wellFormed_run edits
  exact ⟨fun a ha b hb => wf.agreeOnBytes ample ha hb, wf.relationLaws ample⟩

/-- An imported variable is described by all its bytes but the last, by two parts that touch,
and as a whole. -/
def jettyEdits : List RegistryEdit :=
  [.declare "x" .imported,
    .register { base := ⟨3⟩, kind := .exact, size := addressLimit - 1 },
    .register { base := ⟨3⟩, kind := .exact, size := 4 },
    .register { base := ⟨3⟩, kind := .range, offset := 4, size := 4 },
    .register { base := ⟨3⟩, kind := .unbound }]

/-- The longest extent has the bytes of the first part and not all of the variable's, the two
parts share none, and the variable does not have all that the imports have. -/
theorem jetty_bytes :
    let r := Registry.initial.run jettyEdits
    let bytes (desc : Descriptor) : Set Byte := desc.footprint r.spread.storage
    r.spread.Ample ∧
    ∃ long ∈ r.descs, ∃ first ∈ r.descs, ∃ second ∈ r.descs, ∃ whole ∈ r.descs,
      ∃ imports ∈ r.descs, imports.sentinel? = some .importMem ∧ bytes first ⊆ bytes long ∧
        ¬ bytes whole ⊆ bytes long ∧ ¬ (bytes first ∩ bytes second).Nonempty ∧
        ¬ bytes imports ⊆ bytes whole := by
  intro r bytes
  have ample := r.ample_spread
  obtain ⟨agree, -⟩ := relations_mean_bytes jettyEdits r.spread ample
  have described (d : DescId) (registered : r.isRegistered d = true) :
      ∃ desc ∈ r.descs, r.desc? d = some desc := by
    obtain ⟨desc, found⟩ := Registry.isRegistered_iff.mp registered
    exact ⟨desc, Registry.mem_descs_iff.mpr ⟨d, found⟩, found⟩
  obtain ⟨long, hl, found_long⟩ := described ⟨3⟩ (by decide)
  obtain ⟨first, hf, found_first⟩ := described ⟨4⟩ (by decide)
  obtain ⟨second, hs, found_second⟩ := described ⟨5⟩ (by decide)
  obtain ⟨whole, hw, found_whole⟩ := described ⟨6⟩ (by decide)
  obtain ⟨imports, hi, found_imports⟩ := described .importMem (by decide)
  cases found_long
  cases found_first
  cases found_second
  cases found_whole
  cases found_imports
  refine ⟨ample, _, hl, _, hf, _, hs, _, hw, _, hi, rfl, ?_, ?_, ?_, ?_⟩
  · exact (agree _ hl _ hf).covers.mp (by decide)
  · rw [← (agree _ hl _ hw).covers]
    decide
  · rw [← (agree _ hf _ hs).overlaps]
    decide
  · rw [← (agree _ hw _ hi).covers]
    decide

end MemFlow

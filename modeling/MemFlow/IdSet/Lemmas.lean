import MemFlow.IdSet.Basic
import MemFlow.IdSet.Bits

/-!
# Members of sets

What each operation does to the members of a set. A set is determined by its members
(`IdSet.ext_mem`).
-/

namespace MemFlow

namespace IdSet

/-! ## Membership -/

theorem mem_iff {s : IdSet} {v : Nat} : v ∈ s ↔ s.contains v = true := Iff.rfl

theorem mem_iff_bit {s : IdSet} {v : Nat} :
    v ∈ s ↔ (bitsAt s.words (v / 64)).getLsbD (v % 64) = true := by
  rw [mem_iff, contains, hasBit_eq s.ascending]

theorem mem_iff_word {s : IdSet} {v : Nat} :
    v ∈ s ↔ ∃ w ∈ s.words, w.index = v / 64 ∧ w.bits.getLsbD (v % 64) = true := by
  rw [mem_iff_bit, getLsbD_bitsAt s.ascending]

/-- The number that a bit of a word stands for. -/
theorem mem_place {s : IdSet} {i k : Nat} (hk : k < 64) :
    i * 64 + k ∈ s ↔ (bitsAt s.words i).getLsbD k = true := by
  have index : (i * 64 + k) / 64 = i := by omega
  have place : (i * 64 + k) % 64 = k := by omega
  rw [mem_iff_bit, index, place]

theorem mem_place_of_word {s : IdSet} {w : Word} {k : Nat} (hw : w ∈ s.words) (hk : k < 64) :
    w.index * 64 + k ∈ s ↔ w.bits.getLsbD k = true := by
  rw [mem_place hk, bitsAt_of_mem s.ascending hw]

theorem mem_merge {keep : Keep} {op : BitVec 64 → BitVec 64 → BitVec 64} (fits : keep.Fits op)
    {s t : IdSet} {v : Nat} :
    v ∈ merge keep op s t ↔
      (op (bitsAt s.words (v / 64)) (bitsAt t.words (v / 64))).getLsbD (v % 64) = true := by
  rw [mem_iff_bit, ← bitsAt_mergeWords fits s.ascending t.ascending]
  rfl

@[simp] theorem not_mem_empty (v : Nat) : v ∉ (∅ : IdSet) := by
  rw [mem_iff_word]
  rintro ⟨w, hw, _⟩
  cases hw

@[simp] theorem mem_union {s t : IdSet} {v : Nat} : v ∈ s ∪ t ↔ v ∈ s ∨ v ∈ t := by
  rw [show s ∪ t = merge ⟨true, true⟩ (· ||| ·) s t from rfl, mem_merge ⟨by simp, by simp⟩]
  simp [mem_iff_bit]

@[simp] theorem mem_inter {s t : IdSet} {v : Nat} : v ∈ s ∩ t ↔ v ∈ s ∧ v ∈ t := by
  rw [show s ∩ t = merge ⟨false, false⟩ (· &&& ·) s t from rfl, mem_merge ⟨by simp, by simp⟩]
  simp [mem_iff_bit]

@[simp] theorem mem_sdiff {s t : IdSet} {v : Nat} : v ∈ s \ t ↔ v ∈ s ∧ v ∉ t := by
  rw [show s \ t = merge ⟨true, false⟩ (fun a b => a &&& ~~~b) s t from rfl,
    mem_merge ⟨fun x => by rw [BitVec.not_zero, BitVec.and_allOnes]; rfl, by simp⟩]
  simp [mem_iff_bit, Nat.mod_lt]

@[simp] theorem mem_singleton {v w : Nat} : v ∈ singleton w ↔ v = w := by
  rw [mem_iff_word, singleton]
  simp only [List.mem_singleton, exists_eq_left, wordOf, getLsbD_bitOf, decide_eq_true_eq]
  omega

theorem insert?_eq_none {s : IdSet} {v : Nat} : s.insert? v = none ↔ v ∈ s := by
  rw [insert?, Option.pmap_eq_none_iff, insertBit?_eq_none s.ascending]
  rfl

theorem mem_of_insert? {s t : IdSet} {v w : Nat} (h : s.insert? w = some t) :
    v ∈ t ↔ v ∈ s ∨ v = w := by
  obtain ⟨ws, canonical, changed, rfl⟩ := Option.pmap_eq_some_iff.mp h
  rw [mem_iff_bit, mem_iff_bit, ofCanonical, bitsAt_insertBit? s.ascending changed]
  split
  · rename_i same
    rw [BitVec.getLsbD_or, getLsbD_bitOf, Bool.or_eq_true, decide_eq_true_eq]
    exact or_congr_right ⟨fun h => by omega, fun h => by omega⟩
  · rename_i other
    refine (or_iff_left ?_).symm
    rintro rfl
    exact other rfl

@[simp] theorem mem_insert {s : IdSet} {v w : Nat} : v ∈ s.insert w ↔ v ∈ s ∨ v = w := by
  rw [insert]
  cases h : s.insert? w with
  | none =>
    have present := insert?_eq_none.mp h
    exact ⟨Or.inl, fun h => h.elim id fun same => same ▸ present⟩
  | some t => exact mem_of_insert? h

/-- Adding a member does nothing, and anything else gives a new set. -/
theorem insert?_eq (s : IdSet) (v : Nat) :
    s.insert? v = if v ∈ s then none else some (s.insert v) := by
  split
  · rename_i present
    exact insert?_eq_none.mpr present
  · rename_i absent
    rw [insert]
    cases h : s.insert? v with
    | none => exact absurd (insert?_eq_none.mp h) absent
    | some t => rfl

theorem erase?_eq_none {s : IdSet} {v : Nat} : s.erase? v = none ↔ v ∉ s := by
  rw [erase?, Option.pmap_eq_none_iff, eraseBit?_eq_none s.ascending]
  rfl

theorem mem_of_erase? {s t : IdSet} {v w : Nat} (h : s.erase? w = some t) :
    v ∈ t ↔ v ∈ s ∧ v ≠ w := by
  obtain ⟨ws, canonical, changed, rfl⟩ := Option.pmap_eq_some_iff.mp h
  rw [mem_iff_bit, mem_iff_bit, ofCanonical, bitsAt_eraseBit? s.ascending changed]
  split
  · rename_i same
    simp only [BitVec.getLsbD_and, BitVec.getLsbD_not, getLsbD_bitOf, Bool.and_eq_true,
      Bool.not_eq_true', decide_eq_true_eq, decide_eq_false_iff_not]
    exact and_congr_right fun _ => ⟨fun h => by omega, fun h => by omega⟩
  · rename_i other
    refine (and_iff_left ?_).symm
    rintro rfl
    exact other rfl

@[simp] theorem mem_erase {s : IdSet} {v w : Nat} : v ∈ s.erase w ↔ v ∈ s ∧ v ≠ w := by
  rw [erase]
  cases h : s.erase? w with
  | none =>
    have absent := erase?_eq_none.mp h
    exact ⟨fun hv => ⟨hv, fun same => absent (same ▸ hv)⟩, fun h => h.1⟩
  | some t => exact mem_of_erase? h

/-- Taking out what is not there does nothing, and anything else gives a new set. -/
theorem erase?_eq (s : IdSet) (v : Nat) :
    s.erase? v = if v ∈ s then some (s.erase v) else none := by
  split
  · rename_i present
    rw [erase]
    cases h : s.erase? v with
    | none => exact absurd present (erase?_eq_none.mp h)
    | some t => rfl
  · rename_i absent
    exact erase?_eq_none.mpr absent

@[simp] theorem mem_insertAll {s : IdSet} {v : Nat} {vs : List Nat} :
    v ∈ s.insertAll vs ↔ v ∈ s ∨ v ∈ vs := by
  induction vs generalizing s with
  | nil => simp [insertAll]
  | cons w ws ih =>
    have := ih (s := s.insert w)
    simp only [insertAll, List.foldl_cons] at this ⊢
    rw [this, mem_insert, List.mem_cons, or_assoc]

@[simp] theorem mem_ofList {v : Nat} {vs : List Nat} : v ∈ ofList vs ↔ v ∈ vs := by
  simp [ofList]

/-! ## Equality and order -/

/-- **A set is its members.** -/
theorem ext_mem {s t : IdSet} (h : ∀ v, v ∈ s ↔ v ∈ t) : s = t := by
  apply IdSet.ext
  apply eq_of_bitsAt s.canonical t.canonical
  intro i
  apply BitVec.eq_of_getLsbD_eq
  intro k hk
  rw [Bool.eq_iff_iff, ← mem_place hk, ← mem_place hk]
  exact h (i * 64 + k)

theorem eq_iff_mem {s t : IdSet} : s = t ↔ ∀ v, v ∈ s ↔ v ∈ t :=
  ⟨fun h _ => h ▸ Iff.rfl, ext_mem⟩

theorem isEmpty_iff {s : IdSet} : s.isEmpty = true ↔ s = ∅ := by
  constructor
  · intro h
    exact IdSet.ext (List.isEmpty_iff.mp h)
  · rintro rfl
    rfl

theorem isEmpty_iff_not_mem {s : IdSet} : s.isEmpty = true ↔ ∀ v, v ∉ s := by
  rw [isEmpty_iff, eq_iff_mem]
  simp

theorem meets_iff {s t : IdSet} : s.meets t = true ↔ ∃ v, v ∈ s ∧ v ∈ t := by
  rw [meets, meetWords_iff s.ascending t.ascending]
  constructor
  · rintro ⟨a, ha, b, hb, same, overlap⟩
    obtain ⟨k, hk, bit⟩ := exists_bit overlap
    rw [BitVec.getLsbD_and, Bool.and_eq_true] at bit
    refine ⟨a.index * 64 + k, (mem_place_of_word ha hk).mpr bit.1, ?_⟩
    rw [same]
    exact (mem_place_of_word hb hk).mpr bit.2
  · rintro ⟨v, inS, inT⟩
    obtain ⟨a, ha, indexA, bitA⟩ := mem_iff_word.mp inS
    obtain ⟨b, hb, indexB, bitB⟩ := mem_iff_word.mp inT
    refine ⟨a, ha, b, hb, indexA.trans indexB.symm, fun zero => ?_⟩
    have := congrArg (fun x : BitVec 64 => x.getLsbD (v % 64)) zero
    simp [bitA, bitB] at this

theorem isSubset_iff {s t : IdSet} : s.isSubset t = true ↔ s ⊆ t := by
  rw [isSubset, isSubrun_iff s.canonical t.ascending]
  constructor
  · intro covered v hv
    obtain ⟨a, ha, index, bit⟩ := mem_iff_word.mp hv
    have nothing := congrArg (fun x : BitVec 64 => x.getLsbD (v % 64)) (covered a ha)
    rw [mem_iff_bit, ← index]
    simpa [bit, Nat.mod_lt] using nothing
  · intro sub a ha
    apply BitVec.eq_of_getLsbD_eq
    intro k hk
    have both : a.bits.getLsbD k = true → (bitsAt t.words a.index).getLsbD k = true := by
      intro bit
      exact (mem_place hk).mp (sub _ ((mem_place_of_word ha hk).mpr bit))
    rw [BitVec.getLsbD_and, BitVec.getLsbD_not, BitVec.getLsbD_zero]
    grind

end IdSet

end MemFlow

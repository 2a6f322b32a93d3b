import MemFlow.IdSet.Lemmas

/-!
# Listing a set

A cursor has before it the members of the word it is in and of the words behind. Each step gives
the first of them, as taking the lowest bit of a word takes its least member, so that a cursor on
a set gives each member once in ascending order (`IdSet.yields_toList`, `IdSet.mem_toList`,
`IdSet.pairwise_toList`).
-/

namespace MemFlow

/-! ## The members of a word -/

/-- The members a word stands for, in ascending order. -/
def Word.members (w : Word) : List Nat :=
  ((List.range 64).filter w.bits.getLsbD).map (w.index * 64 + ·)

theorem Word.mem_members {w : Word} {v : Nat} :
    v ∈ w.members ↔ w.index = v / 64 ∧ w.bits.getLsbD (v % 64) = true := by
  simp only [Word.members, List.mem_map, List.mem_filter, List.mem_range]
  constructor
  · rintro ⟨k, ⟨hk, bit⟩, rfl⟩
    have index : (w.index * 64 + k) / 64 = w.index := by omega
    have place : (w.index * 64 + k) % 64 = k := by omega
    rw [index, place]
    exact ⟨rfl, bit⟩
  · rintro ⟨index, bit⟩
    exact ⟨v % 64, ⟨Nat.mod_lt _ (by decide), bit⟩, by omega⟩

theorem Word.length_members (w : Word) : w.members.length = w.count := by
  rw [Word.members, List.length_map, Word.count, List.countP_eq_length_filter]

theorem find?_lowest {x : BitVec 64} (h : x ≠ 0#64) :
    (List.range 64).find? x.getLsbD = some (lowest x) := by
  obtain ⟨k, hk, bit⟩ := exists_bit h
  cases first : (List.range 64).find? x.getLsbD with
  | none => exact absurd bit (List.find?_eq_none.mp first k (List.mem_range.mpr hk))
  | some j => rw [lowest, first, Option.getD_some]

/-- Where `k` is the lowest bit of `x`, the bits of `x` and `x - 1` agree above it and differ up
to it, so their conjunction is `x` without that bit. -/
theorem getLsbD_and_sub_one {x : BitVec 64} {k : Nat} (set : x.getLsbD k = true)
    (clear : ∀ j < k, x.getLsbD j = false) (j : Nat) :
    (x &&& (x - 1#64)).getLsbD j = (x.getLsbD j && decide (j ≠ k)) := by
  simp only [← BitVec.testBit_toNat] at set clear
  have low : x.toNat % 2 ^ (k + 1) = 2 ^ k := by
    apply Nat.eq_of_testBit_eq
    intro i
    rw [Nat.testBit_mod_two_pow, Nat.testBit_two_pow]
    rcases Nat.lt_trichotomy i k with lt | rfl | gt
    · rw [clear i lt, Bool.and_false, decide_eq_false (by omega)]
    · rw [set, Bool.and_true, decide_eq_true (Nat.lt_succ_self i), decide_eq_true rfl]
    · rw [decide_eq_false (by omega), Bool.false_and, decide_eq_false (by omega)]
  obtain ⟨q, split⟩ : ∃ q, x.toNat = 2 ^ (k + 1) * q + 2 ^ k :=
    ⟨x.toNat / 2 ^ (k + 1), by rw [← low, Nat.div_add_mod]⟩
  have pos : 0 < 2 ^ k := Nat.two_pow_pos k
  have lt : 2 ^ k < 2 ^ (k + 1) := Nat.pow_lt_pow_right (by decide) (Nat.lt_succ_self k)
  have le : 1#64 ≤ x := by
    show 1 ≤ x.toNat
    omega
  have less : (x - 1#64).toNat = 2 ^ (k + 1) * q + (2 ^ k - 1) := by
    rw [BitVec.toNat_sub_of_le le, BitVec.toNat_ofNat]
    omega
  rw [BitVec.getLsbD_and, ← BitVec.testBit_toNat, ← BitVec.testBit_toNat, less, split,
    Nat.testBit_two_pow_mul_add _ lt, Nat.testBit_two_pow_mul_add _ (by omega),
    Nat.testBit_two_pow, Nat.testBit_two_pow_sub_one]
  grind

/-- The bits that are set, in ascending order, are the lowest one and then the others. -/
theorem filter_getLsbD_range {x : BitVec 64} (h : x ≠ 0#64) :
    (List.range 64).filter x.getLsbD =
      lowest x :: (List.range 64).filter (x &&& (x - 1#64)).getLsbD := by
  have found := find?_lowest h
  obtain ⟨set, _, clear⟩ := List.find?_range_eq_some.mp found
  obtain ⟨_, low, high, range, unset⟩ := List.find?_eq_some_iff_append.mp found
  have ascending : (low ++ lowest x :: high).Pairwise (· < ·) := range ▸ List.pairwise_lt_range
  have above := (List.pairwise_cons.mp (List.pairwise_append.mp ascending).2.1).1
  have cleared := getLsbD_and_sub_one set fun j hj => by simpa using clear j hj
  rw [range, List.filter_append, List.filter_append]
  have lowNone : low.filter x.getLsbD = [] := by
    rw [List.filter_eq_nil_iff]
    exact fun j hj => by simpa using unset j hj
  have lowNone' : low.filter (x &&& (x - 1#64)).getLsbD = [] := by
    rw [List.filter_eq_nil_iff]
    intro j hj
    have := unset j hj
    simp_all
  have highSame : high.filter (x &&& (x - 1#64)).getLsbD = high.filter x.getLsbD := by
    apply List.filter_congr
    intro j hj
    have ne : j ≠ lowest x := Nat.ne_of_gt (above j hj)
    simp [cleared, ne]
  rw [lowNone, lowNone', List.filter_cons_of_pos set, List.filter_cons_of_neg (by simp [cleared]),
    highSame]
  rfl

/-- Taking the lowest bit of a word takes the first of its members. -/
theorem Word.members_of_pop? {w rest : Word} {v : Nat} (h : w.pop? = some (v, rest)) :
    w.members = v :: rest.members := by
  unfold Word.pop? at h
  split at h
  · rename_i ne
    obtain ⟨rfl, rfl⟩ := Prod.mk.inj (Option.some.inj h)
    rw [Word.members, filter_getLsbD_range ne, List.map_cons]
    rfl
  · cases h

theorem Word.members_of_pop?_none {w : Word} (h : w.pop? = none) : w.members = [] := by
  unfold Word.pop? at h
  split at h
  · cases h
  · rename_i zero
    rw [Word.members, Classical.not_not.mp zero]
    simp

namespace Cursor

/-- The members a cursor has before it. -/
def rest (c : Cursor) : List Nat :=
  (c.current.map Word.members).getD [] ++ c.words.flatMap Word.members

/-- A cursor gives these members one by one and then ends. -/
inductive Yields : Cursor → List Nat → Prop
  | done {c : Cursor} (ends : c.next = none) : Yields c []
  | more {c c' : Cursor} {v : Nat} {vs : List Nat} (gives : c.next = some (v, c'))
      (others : Yields c' vs) : Yields c (v :: vs)

theorem members_of_bind_none {current : Option Word} (h : current.bind Word.pop? = none) :
    (current.map Word.members).getD [] = [] := by
  cases current with
  | none => rfl
  | some w => exact Word.members_of_pop?_none h

theorem members_of_bind_some {current : Option Word} {v : Nat} {w : Word}
    (h : current.bind Word.pop? = some (v, w)) :
    (current.map Word.members).getD [] = v :: w.members := by
  cases current with
  | none => cases h
  | some c => exact Word.members_of_pop? h

theorem rest_of_nextFrom_none {ws : List Word} {current : Option Word}
    (h : nextFrom ws current = none) : rest ⟨current, ws⟩ = [] := by
  induction ws generalizing current with
  | nil =>
    rw [nextFrom, Option.map_eq_none_iff] at h
    simp [rest, members_of_bind_none h]
  | cons w ws ih =>
    rw [nextFrom] at h
    split at h
    · cases h
    · rename_i spent
      rw [← ih h]
      simp [rest, members_of_bind_none spent]

theorem rest_of_nextFrom_some {ws : List Word} {current : Option Word} {v : Nat} {c : Cursor}
    (h : nextFrom ws current = some (v, c)) : rest ⟨current, ws⟩ = v :: c.rest := by
  induction ws generalizing current with
  | nil =>
    obtain ⟨⟨u, w⟩, popped, same⟩ := Option.map_eq_some_iff.mp h
    obtain ⟨rfl, rfl⟩ := Prod.mk.inj same
    simp [rest, members_of_bind_some popped]
  | cons w ws ih =>
    rw [nextFrom] at h
    split at h
    · rename_i r popped
      obtain ⟨rfl, rfl⟩ := Prod.mk.inj (Option.some.inj h)
      simp [rest, members_of_bind_some popped]
    · rename_i spent
      rw [← ih h]
      simp [rest, members_of_bind_none spent]

theorem take_eq (n : Nat) (c : Cursor) : c.take n = c.rest.take n := by
  induction n generalizing c with
  | zero => rfl
  | succ n ih =>
    rw [take]
    split
    · rename_i v c' given
      rw [rest_of_nextFrom_some given, List.take_succ_cons, ih c']
    · rename_i ended
      rw [rest_of_nextFrom_none ended, List.take_nil]

/-- A cursor ends once it has given what it has before it. -/
theorem yields_rest (c : Cursor) : c.Yields c.rest := by
  generalize members : c.rest = vs
  induction vs generalizing c with
  | nil =>
    refine .done ?_
    cases step : c.next with
    | none => rfl
    | some r =>
      rw [rest_of_nextFrom_some (v := r.1) step] at members
      cases members
  | cons v vs ih =>
    cases step : c.next with
    | none =>
      rw [rest_of_nextFrom_none step] at members
      cases members
    | some r =>
      rw [rest_of_nextFrom_some (v := r.1) step] at members
      obtain ⟨rfl, others⟩ := List.cons.inj members
      exact .more step (ih r.2 others)

end Cursor

namespace IdSet

theorem rest_cursor (s : IdSet) : s.cursor.rest = s.words.flatMap Word.members := rfl

theorem length_rest_cursor (s : IdSet) : s.cursor.rest.length = s.size := by
  rw [rest_cursor, size]
  induction s.words with
  | nil => rfl
  | cons w ws ih =>
    rw [List.flatMap_cons, List.length_append, Word.length_members, ih, List.foldr_cons]

/-- A set has as many members as a cursor gives, so the listing misses none. -/
theorem toList_eq (s : IdSet) : s.toList = s.cursor.rest := by
  rw [toList, Cursor.take_eq, ← length_rest_cursor, List.take_length]

theorem length_toList (s : IdSet) : s.toList.length = s.size := by
  rw [toList_eq, length_rest_cursor]

theorem yields_toList (s : IdSet) : s.cursor.Yields s.toList := by
  rw [toList_eq]
  exact s.cursor.yields_rest

@[simp] theorem mem_toList {s : IdSet} {v : Nat} : v ∈ s.toList ↔ v ∈ s := by
  rw [toList_eq, rest_cursor, List.mem_flatMap, mem_iff_word]
  simp only [Word.mem_members]

/-- The members come in strictly ascending order. -/
theorem pairwise_toList (s : IdSet) : s.toList.Pairwise (· < ·) := by
  rw [toList_eq, rest_cursor, List.pairwise_flatMap]
  constructor
  · intro w _
    rw [Word.members, List.pairwise_map]
    exact (List.pairwise_lt_range.filter _).imp fun h => by omega
  · refine s.ascending.imp ?_
    intro a b hab x hx y hy
    have indexX := (Word.mem_members.mp hx).1
    have indexY := (Word.mem_members.mp hy).1
    omega

end IdSet

end MemFlow

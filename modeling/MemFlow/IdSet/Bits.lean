import MemFlow.IdSet.Run

/-!
# The bits of a run

An algorithm on runs is described by the bits it leaves at each index: `bitsAt` reads them, and
here stands what searching, adding, taking out, merging and comparing make of them. A canonical
run is determined by its bits (`eq_of_bitsAt`).
-/

namespace MemFlow

/-! ## The bits of a run -/

/-- The bits a run holds at an index; an absent word reads as zero. -/
def bitsAt : List Word → Nat → BitVec 64
  | [], _ => 0#64
  | w :: ws, i => if w.index = i then w.bits else bitsAt ws i

theorem bitsAt_of_ne {ws : List Word} {i : Nat} (h : ∀ w ∈ ws, w.index ≠ i) :
    bitsAt ws i = 0#64 := by
  induction ws with
  | nil => rfl
  | cons w ws ih =>
    obtain ⟨ne, rest⟩ := List.forall_mem_cons.mp h
    rw [bitsAt, if_neg ne, ih rest]

theorem bitsAt_of_mem {ws : List Word} (h : Ascending ws) {w : Word} (hw : w ∈ ws) :
    bitsAt ws w.index = w.bits := by
  induction ws with
  | nil => cases hw
  | cons c ws ih =>
    obtain ⟨above, rest⟩ := List.pairwise_cons.mp h
    rcases List.mem_cons.mp hw with rfl | hw
    · rw [bitsAt, if_pos rfl]
    · have lt := above w hw
      rw [bitsAt, if_neg (by omega), ih rest hw]

theorem getLsbD_bitsAt {ws : List Word} (ha : Ascending ws) {i k : Nat} :
    (bitsAt ws i).getLsbD k = true ↔ ∃ w ∈ ws, w.index = i ∧ w.bits.getLsbD k = true := by
  constructor
  · intro bit
    have hit : ∃ w ∈ ws, w.index = i := by
      apply Classical.byContradiction
      intro none
      have zero : bitsAt ws i = 0#64 := bitsAt_of_ne fun w hw here => none ⟨w, hw, here⟩
      simp [zero] at bit
    obtain ⟨w, hw, rfl⟩ := hit
    exact ⟨w, hw, rfl, bitsAt_of_mem ha hw ▸ bit⟩
  · rintro ⟨w, hw, rfl, bit⟩
    rw [bitsAt_of_mem ha hw]
    exact bit

theorem exists_bit {x : BitVec 64} (h : x ≠ 0#64) : ∃ k < 64, x.getLsbD k = true := by
  apply Classical.byContradiction
  intro none
  apply h
  apply BitVec.eq_of_getLsbD_eq
  intro k hk
  rw [BitVec.getLsbD_zero, ← Bool.not_eq_true]
  exact fun bit => none ⟨k, hk, bit⟩

/-! ## One number -/

section
variable {low high : List Word} {w : Word} {i : Nat}

theorem bitsAt_hit (here : w.index = i) (around : Around i low high) (j : Nat) :
    bitsAt (low ++ w :: high) j = if i = j then w.bits else bitsAt (low ++ high) j := by
  induction low with
  | nil => rw [List.nil_append, bitsAt, here, List.nil_append]
  | cons a low ih =>
    obtain ⟨lt, below⟩ := List.forall_mem_cons.mp around.below
    rw [List.cons_append, bitsAt, ih ⟨below, around.above⟩, List.cons_append, bitsAt]
    grind

theorem bitsAt_around (around : Around i low high) : bitsAt (low ++ high) i = 0#64 := by
  apply bitsAt_of_ne
  intro a ha
  rcases List.mem_append.mp ha with ha | ha
  · exact Nat.ne_of_lt (around.below a ha)
  · exact Nat.ne_of_gt (around.above a ha)

end

theorem and_bitOf_ne_zero (x : BitVec 64) (v : Nat) :
    x &&& bitOf v ≠ 0#64 ↔ x.getLsbD (v % 64) = true := by
  constructor
  · intro ne
    obtain ⟨k, _, bit⟩ := exists_bit ne
    rw [BitVec.getLsbD_and, getLsbD_bitOf, Bool.and_eq_true, decide_eq_true_eq] at bit
    exact bit.2 ▸ bit.1
  · intro bit zero
    have := congrArg (fun y : BitVec 64 => y.getLsbD (v % 64)) zero
    simp [getLsbD_bitOf, bit] at this

section
variable {ws ws' : List Word} {v : Nat}

theorem hasBit_eq (h : Ascending ws) (v : Nat) :
    hasBit ws v = (bitsAt ws (v / 64)).getLsbD (v % 64) := by
  rw [Bool.eq_iff_iff]
  cases parted h (v / 64) with
  | hit low w high here around =>
    rw [hasBit_hit here around, bne_iff_ne, and_bitOf_ne_zero, bitsAt_hit here around, if_pos rfl]
  | miss low high around => rw [hasBit_miss around, bitsAt_around around, BitVec.getLsbD_zero]

theorem insertBit?_eq_none (h : Ascending ws) : insertBit? ws v = none ↔ hasBit ws v = true := by
  cases parted h (v / 64) with
  | hit low w high here around =>
    rw [insertBit?_hit here around, hasBit_hit here around, bne_iff_ne]
    simp
  | miss low high around => rw [insertBit?_miss around, hasBit_miss around]; simp

/-- Adding a number sets its bit and no other. -/
theorem bitsAt_insertBit? (h : Ascending ws) (changed : insertBit? ws v = some ws') (j : Nat) :
    bitsAt ws' j = if v / 64 = j then bitsAt ws j ||| bitOf v else bitsAt ws j := by
  cases parted h (v / 64) with
  | hit low w high here around =>
    rw [insertBit?_hit here around] at changed
    split at changed
    · cases changed
    · obtain rfl := Option.some.inj changed
      rw [bitsAt_hit here around,
        bitsAt_hit (w := ⟨w.index, w.bits ||| bitOf v⟩) here around]
      split <;> rfl
  | miss low high around =>
    rw [insertBit?_miss around] at changed
    obtain rfl := Option.some.inj changed
    rw [bitsAt_hit (show (wordOf v).index = v / 64 from rfl) around]
    split
    · rename_i here
      rw [← here, bitsAt_around around, BitVec.zero_or]
      rfl
    · rfl

theorem eraseBit?_eq_none (h : Ascending ws) :
    eraseBit? ws v = none ↔ ¬ hasBit ws v = true := by
  cases parted h (v / 64) with
  | hit low w high here around =>
    rw [eraseBit?_hit here around, hasBit_hit here around, bne_iff_ne]
    grind
  | miss low high around => rw [eraseBit?_miss around, hasBit_miss around]; simp

/-- Taking a number out clears its bit and no other. -/
theorem bitsAt_eraseBit? (h : Ascending ws) (changed : eraseBit? ws v = some ws') (j : Nat) :
    bitsAt ws' j = if v / 64 = j then bitsAt ws j &&& ~~~bitOf v else bitsAt ws j := by
  cases parted h (v / 64) with
  | hit low w high here around =>
    rw [eraseBit?_hit here around] at changed
    rw [bitsAt_hit here around]
    split at changed
    · cases changed
    · split at changed
      · rename_i emptied
        obtain rfl := Option.some.inj changed
        split
        · rename_i here
          rw [← here, bitsAt_around around, emptied]
        · rfl
      · obtain rfl := Option.some.inj changed
        rw [bitsAt_hit (w := ⟨w.index, w.bits &&& ~~~bitOf v⟩) here around]
        split <;> rfl
  | miss low high around =>
    rw [eraseBit?_miss around] at changed
    cases changed

end

/-! ## Two runs -/

/-- What a merge keeps of unmatched words is what its operation makes of them with zero. -/
structure Keep.Fits (keep : Keep) (op : BitVec 64 → BitVec 64 → BitVec 64) : Prop where
  left : ∀ x, op x 0#64 = if keep.left then x else 0#64
  right : ∀ y, op 0#64 y = if keep.right then y else 0#64

section
variable {keep : Keep} {op : BitVec 64 → BitVec 64 → BitVec 64} {as bs : List Word}

/-- At the index of a meeting, the merged words hold what the merge makes of it. -/
theorem bitsAt_filterMap_merged {ms : List Meeting}
    (h : ms.Pairwise (fun m n => m.index < n.index)) {m : Meeting} (hm : m ∈ ms) :
    bitsAt (ms.filterMap (Meeting.merged keep op)) m.index =
      ((m.merged keep op).map Word.bits).getD 0#64 := by
  induction ms with
  | nil => cases hm
  | cons n ms ih =>
    obtain ⟨above, rest⟩ := List.pairwise_cons.mp h
    have aboveMerged : ∀ w ∈ ms.filterMap (Meeting.merged keep op), n.index < w.index := by
      intro w hw
      obtain ⟨c, hc, merged⟩ := List.mem_filterMap.mp hw
      exact Meeting.index_merged merged ▸ above c hc
    rw [List.filterMap_cons]
    rcases List.mem_cons.mp hm with rfl | hm
    · split
      · rename_i dropped
        rw [dropped]
        exact bitsAt_of_ne fun w hw => Nat.ne_of_gt (aboveMerged w hw)
      · rename_i w merged
        rw [merged, bitsAt, if_pos (Meeting.index_merged merged)]
        rfl
    · have lt := above m hm
      split
      · exact ih rest hm
      · rename_i w merged
        have here := Meeting.index_merged merged
        rw [bitsAt, if_neg (by omega)]
        exact ih rest hm

theorem bitsAt_merged (ha : Ascending as) (hb : Ascending bs) {m : Meeting} (hm : m.Of as bs) :
    bitsAt (mergeWords keep op as bs) m.index = ((m.merged keep op).map Word.bits).getD 0#64 :=
  bitsAt_filterMap_merged (pairwise_walk ha hb) ((mem_walk ha hb).mpr hm)

/-- Merging applies the operation at every index. -/
theorem bitsAt_mergeWords (fits : keep.Fits op) (ha : Ascending as) (hb : Ascending bs) (i : Nat) :
    bitsAt (mergeWords keep op as bs) i = op (bitsAt as i) (bitsAt bs i) := by
  by_cases inLeft : ∃ a ∈ as, a.index = i <;> by_cases inRight : ∃ b ∈ bs, b.index = i
  · obtain ⟨a, hma, rfl⟩ := inLeft
    obtain ⟨b, hmb, same⟩ := inRight
    refine (bitsAt_merged ha hb (m := .both a b) ⟨hma, hmb, same.symm⟩).trans ?_
    rw [bitsAt_of_mem ha hma, ← same, bitsAt_of_mem hb hmb]
    by_cases zero : op a.bits b.bits = 0#64 <;> simp [Meeting.merged, zero]
  · obtain ⟨a, hma, rfl⟩ := inLeft
    have alone : ∀ b ∈ bs, b.index ≠ a.index := fun b hmb same => inRight ⟨b, hmb, same⟩
    refine (bitsAt_merged ha hb (m := .left a) ⟨hma, fun b hmb => (alone b hmb).symm⟩).trans ?_
    rw [bitsAt_of_mem ha hma, bitsAt_of_ne alone, fits.left]
    cases h : keep.left <;> simp [Meeting.merged, h]
  · obtain ⟨b, hmb, rfl⟩ := inRight
    have alone : ∀ a ∈ as, a.index ≠ b.index := fun a hma same => inLeft ⟨a, hma, same⟩
    refine (bitsAt_merged ha hb (m := .right b) ⟨hmb, alone⟩).trans ?_
    rw [bitsAt_of_mem hb hmb, bitsAt_of_ne alone, fits.right]
    cases h : keep.right <;> simp [Meeting.merged, h]
  · have notLeft : ∀ a ∈ as, a.index ≠ i := fun a hma same => inLeft ⟨a, hma, same⟩
    have notRight : ∀ b ∈ bs, b.index ≠ i := fun b hmb same => inRight ⟨b, hmb, same⟩
    rw [bitsAt_of_ne notLeft, bitsAt_of_ne notRight, fits.left, ite_self]
    apply bitsAt_of_ne
    intro w hw
    obtain ⟨m, hm, merged⟩ := List.mem_filterMap.mp hw
    rw [Meeting.index_merged merged]
    have origin := (mem_walk ha hb).mp hm
    cases m with
    | left a => exact notLeft a origin.1
    | right b => exact notRight b origin.1
    | both a b => exact notLeft a origin.1

theorem meetWords_iff (ha : Ascending as) (hb : Ascending bs) :
    meetWords as bs = true ↔
      ∃ a ∈ as, ∃ b ∈ bs, a.index = b.index ∧ a.bits &&& b.bits ≠ 0#64 := by
  simp only [meetWords, List.any_eq_true, mem_walk ha hb]
  constructor
  · rintro ⟨m, hm, overlap⟩
    cases m with
    | left | right => cases overlap
    | both a b => exact ⟨a, hm.1, b, hm.2.1, hm.2.2, bne_iff_ne.mp overlap⟩
  · rintro ⟨a, hma, b, hmb, same, overlap⟩
    exact ⟨.both a b, ⟨hma, hmb, same⟩, bne_iff_ne.mpr overlap⟩

/-- Words below an index have no bits there. -/
theorem bitsAt_append_of_lt {low high : List Word} {j : Nat} (below : ∀ a ∈ low, a.index < j) :
    bitsAt (low ++ high) j = bitsAt high j := by
  induction low with
  | nil => rfl
  | cons a low ih =>
    obtain ⟨lt, rest⟩ := List.forall_mem_cons.mp below
    rw [List.cons_append, bitsAt, if_neg (by omega), ih rest]

theorem dropWhile_below {low high : List Word} {i : Nat} (below : ∀ a ∈ low, a.index < i) :
    (low ++ high).dropWhile (·.index < i) = high.dropWhile (·.index < i) :=
  List.dropWhile_append_of_pos fun a ha => decide_eq_true (below a ha)

/-- A run is within another exactly if none of its bits is missing there. -/
theorem isSubrun_iff (ha : Canonical as) (hb : Ascending bs) :
    isSubrun as bs = true ↔ ∀ a ∈ as, a.bits &&& ~~~bitsAt bs a.index = 0#64 := by
  induction as generalizing bs with
  | nil => simp [isSubrun]
  | cons a as ih =>
    obtain ⟨above, _⟩ := List.pairwise_cons.mp ha.ascending
    rw [isSubrun, List.forall_mem_cons]
    cases parted hb a.index with
    | hit low w high here around =>
      -- The words that were passed lie below all that is left to look up.
      have later : ∀ c ∈ as, bitsAt (low ++ w :: high) c.index = bitsAt (w :: high) c.index := by
        intro c hc
        exact bitsAt_append_of_lt fun l hl => Nat.lt_trans (around.below l hl) (above c hc)
      have left : Ascending (w :: high) := (List.pairwise_append.mp hb).2.1
      have rest : (∀ c ∈ as, c.bits &&& ~~~bitsAt (low ++ w :: high) c.index = 0#64) ↔
          isSubrun as (w :: high) = true := by
        rw [ih ha.tail left]
        exact forall₂_congr fun c hc => by rw [later c hc]
      rw [dropWhile_below around.below, List.dropWhile_cons_of_neg (by simp [here]),
        bitsAt_hit here around, if_pos rfl, rest]
      simp [here]
    | miss low high around =>
      refine iff_of_false ?_ ?_
      · rw [dropWhile_below around.below]
        cases high with
        | nil => exact Bool.false_ne_true
        | cons b high =>
          have gt := around.above b List.mem_cons_self
          rw [List.dropWhile_cons_of_neg (by simpa using Nat.le_of_lt gt)]
          simp [Nat.ne_of_gt gt]
      · rw [bitsAt_around around, BitVec.not_zero, BitVec.and_allOnes]
        intro zero
        exact ha.populated a List.mem_cons_self zero.1

end

/-! ## Runs are determined by their bits -/

/-- The first index of a canonical run holds a bit, so a run of the same bits has a word there. -/
theorem not_below_of_bitsAt {a : Word} {as bs : List Word} (ha : Canonical (a :: as))
    (h : bitsAt (a :: as) a.index = bitsAt bs a.index) : ¬ ∀ b ∈ bs, a.index < b.index := by
  intro below
  apply ha.populated a List.mem_cons_self
  rw [bitsAt, if_pos rfl] at h
  rw [h]
  exact bitsAt_of_ne fun b hb => Nat.ne_of_gt (below b hb)

theorem eq_of_bitsAt {as bs : List Word} (ha : Canonical as) (hb : Canonical bs)
    (h : ∀ i, bitsAt as i = bitsAt bs i) : as = bs := by
  induction as, bs using runs_induction with
  | leftEnd bs =>
    cases bs with
    | nil => rfl
    | cons b bs => exact absurd (List.forall_mem_nil _) (not_below_of_bitsAt hb (h b.index).symm)
  | rightEnd a as => exact absurd (List.forall_mem_nil _) (not_below_of_bitsAt ha (h a.index))
  | less a as b bs lt =>
    have above := (List.pairwise_cons.mp hb.ascending).1
    refine absurd ?_ (not_below_of_bitsAt ha (h a.index))
    exact List.forall_mem_cons.mpr ⟨lt, fun c hc => Nat.lt_trans lt (above c hc)⟩
  | greater a as b bs gt =>
    have above := (List.pairwise_cons.mp ha.ascending).1
    refine absurd ?_ (not_below_of_bitsAt hb (h b.index).symm)
    exact List.forall_mem_cons.mpr ⟨gt, fun c hc => Nat.lt_trans gt (above c hc)⟩
  | equal a as b bs eq ih =>
    have bits := h a.index
    rw [bitsAt, if_pos rfl, bitsAt, if_pos eq.symm] at bits
    have word : a = b := by
      cases a
      cases b
      simp_all
    subst word
    have aboveA := (List.pairwise_cons.mp ha.ascending).1
    have aboveB := (List.pairwise_cons.mp hb.ascending).1
    rw [ih ha.tail hb.tail]
    intro i
    by_cases here : a.index = i
    · rw [← here, bitsAt_of_ne fun c hc => Nat.ne_of_gt (aboveA c hc),
        bitsAt_of_ne fun c hc => Nat.ne_of_gt (aboveB c hc)]
    · have same := h i
      rwa [bitsAt, if_neg here, bitsAt, if_neg here] at same

end MemFlow

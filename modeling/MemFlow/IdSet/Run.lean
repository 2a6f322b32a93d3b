/-!
# Runs of words

A set of numbers is kept as its non-zero 64-bit words in ascending order. This module has the
algorithms on such runs. An operation on one number searches for the word of its index and
changes that word in place, puts in a new one or takes out one that has become zero. An
operation on two sets is one walk over both runs, which meets every index of either once. A
cursor lists a run by taking the lowest bit of one word after another.

A run is canonical if its indices strictly ascend and no word is zero. What changes a run keeps
it canonical (`canonical_insertBit?`, `canonical_eraseBit?`, `canonical_mergeWords`).
-/

namespace MemFlow

/-- The members from `64 * index` to `64 * index + 63`, one bit each. -/
structure Word where
  index : Nat
  bits : BitVec 64
deriving DecidableEq, Repr

/-- Indices strictly ascend along the run. -/
def Ascending (ws : List Word) : Prop := ws.Pairwise (fun a b => a.index < b.index)

/-- No word of the run is zero. -/
def Populated (ws : List Word) : Prop := ∀ w ∈ ws, w.bits ≠ 0#64

/-- The one form in which a set is kept. -/
structure Canonical (ws : List Word) : Prop where
  ascending : Ascending ws
  populated : Populated ws

/-- The bit of `v` in its word. -/
def bitOf (v : Nat) : BitVec 64 := 1#64 <<< (v % 64)

/-- The word that stands for `v` alone. -/
def wordOf (v : Nat) : Word := ⟨v / 64, bitOf v⟩

/-! ## Search -/

/-- Where an index stands in a run: at a word, or at the position that its word would take. -/
inductive Slot where
  | found (pos : Nat) (word : Word)
  | gap (pos : Nat)

/-- The same place, seen from a run with one more word in front. -/
def Slot.next : Slot → Slot
  | .found pos w => .found (pos + 1) w
  | .gap pos => .gap (pos + 1)

/-- Look an index up in an ascending run. No index repeats, so there is one answer that any way
of searching has to give: the word of the index, or else the place between its neighbours. -/
def search : List Word → Nat → Slot
  | [], _ => .gap 0
  | w :: ws, i =>
    if w.index < i then (search ws i).next
    else if w.index = i then .found 0 w
    else .gap 0

/-- Whether the run holds the bit of `v`. -/
def hasBit (ws : List Word) (v : Nat) : Bool :=
  match search ws (v / 64) with
  | .found _ w => w.bits &&& bitOf v != 0#64
  | .gap _ => false

/-- Set the bit of `v`; nothing if it is set. -/
def insertBit? (ws : List Word) (v : Nat) : Option (List Word) :=
  match search ws (v / 64) with
  | .found pos w =>
    if w.bits &&& bitOf v ≠ 0#64 then none
    else some (ws.set pos { w with bits := w.bits ||| bitOf v })
  | .gap pos => some (ws.insertIdx pos (wordOf v))

/-- Clear the bit of `v`; nothing if it is clear. A word that is left without bits goes. -/
def eraseBit? (ws : List Word) (v : Nat) : Option (List Word) :=
  match search ws (v / 64) with
  | .found pos w =>
    if w.bits &&& bitOf v = 0#64 then none
    else if w.bits &&& ~~~bitOf v = 0#64 then some (ws.eraseIdx pos)
    else some (ws.set pos { w with bits := w.bits &&& ~~~bitOf v })
  | .gap _ => none

/-! ## Walking two runs -/

/-- What a walk over two runs meets at an index: a word of one run alone, or one of each. -/
inductive Meeting where
  | left (a : Word)
  | right (b : Word)
  | both (a b : Word)

/-- The walk while `a` heads the left run; `rest` goes on behind it. -/
def walkHead (a : Word) (rest : List Word → List Meeting) : List Word → List Meeting
  | [] => .left a :: rest []
  | b :: bs =>
    if a.index < b.index then .left a :: rest (b :: bs)
    else if b.index < a.index then .right b :: walkHead a rest bs
    else .both a b :: rest bs

/-- Walk two ascending runs together. The smaller head is met first and alone, equal heads are
met together, and once a run has ended the words of the other are met alone. -/
def walk : List Word → List Word → List Meeting
  | [] => List.map .right
  | a :: as => walkHead a (walk as)

/-- Which side's unmatched words survive a merge. -/
structure Keep where
  left : Bool
  right : Bool

/-- The word a merge makes of a meeting. Unmatched words are taken as they are or left out; only
where two words match can the result be zero. -/
def Meeting.merged (keep : Keep) (op : BitVec 64 → BitVec 64 → BitVec 64) : Meeting → Option Word
  | .left a => if keep.left then some a else none
  | .right b => if keep.right then some b else none
  | .both a b => if op a.bits b.bits ≠ 0#64 then some ⟨a.index, op a.bits b.bits⟩ else none

/-- Merge two runs. -/
def mergeWords (keep : Keep) (op : BitVec 64 → BitVec 64 → BitVec 64) (as bs : List Word) :
    List Word :=
  (walk as bs).filterMap (Meeting.merged keep op)

/-- Whether two matching words share a bit. -/
def Meeting.overlaps : Meeting → Bool
  | .both a b => a.bits &&& b.bits != 0#64
  | _ => false

/-- Whether two runs share a bit; the walk stops at the first one. -/
def meetWords (as bs : List Word) : Bool := (walk as bs).any Meeting.overlaps

/-- Whether every bit of the left run is one of the right. The right run is followed up to the
index of each word of the left; the word found there stays for the next one to pass. -/
def isSubrun : List Word → List Word → Bool
  | [], _ => true
  | a :: as, bs =>
    match bs.dropWhile (·.index < a.index) with
    | [] => false
    | b :: rest =>
      if b.index = a.index ∧ a.bits &&& ~~~b.bits = 0#64 then isSubrun as (b :: rest) else false

/-! ## Listing -/

/-- The position of the lowest bit that is set. -/
def lowest (bits : BitVec 64) : Nat := ((List.range 64).find? bits.getLsbD).getD 64

/-- The least member of a word, and the word without it. -/
def Word.pop? (w : Word) : Option (Nat × Word) :=
  if w.bits ≠ 0#64 then
    some (w.index * 64 + lowest w.bits, { w with bits := w.bits &&& (w.bits - 1#64) })
  else none

/-- How many members a word stands for. -/
def Word.count (w : Word) : Nat := (List.range 64).countP w.bits.getLsbD

/-- Where a listing stands: what is left of the word it is in, and the words it has not begun. -/
structure Cursor where
  current : Option Word
  words : List Word

namespace Cursor

/-- The next member from a word that may be used up, else from the words behind it. -/
def nextFrom : List Word → Option Word → Option (Nat × Cursor)
  | [], current => (current.bind Word.pop?).map fun r => (r.1, ⟨some r.2, []⟩)
  | w :: ws, current =>
    match current.bind Word.pop? with
    | some r => some (r.1, ⟨some r.2, w :: ws⟩)
    | none => nextFrom ws (some w)

/-- The next member, and the cursor behind it. -/
def next (c : Cursor) : Option (Nat × Cursor) := nextFrom c.words c.current

/-- The next members, `n` of them at most. -/
def take : Nat → Cursor → List Nat
  | 0, _ => []
  | n + 1, c =>
    match c.next with
    | some (v, c) => v :: take n c
    | none => []

end Cursor

/-! ## A search parts the run -/

/-- The words of `low` lie below the index `i` and those of `high` above it. -/
structure Around (i : Nat) (low high : List Word) : Prop where
  below : ∀ a ∈ low, a.index < i
  above : ∀ b ∈ high, i < b.index

/-- How an index parts an ascending run: at the word that has it, or between two words. -/
inductive Parted (i : Nat) : List Word → Prop
  | hit (low : List Word) (w : Word) (high : List Word) (here : w.index = i)
      (around : Around i low high) : Parted i (low ++ w :: high)
  | miss (low high : List Word) (around : Around i low high) : Parted i (low ++ high)

theorem Around.cons {i : Nat} {w : Word} {low high : List Word} (lt : w.index < i)
    (around : Around i low high) : Around i (w :: low) high :=
  ⟨List.forall_mem_cons.mpr ⟨lt, around.below⟩, around.above⟩

theorem parted {ws : List Word} (h : Ascending ws) (i : Nat) : Parted i ws := by
  induction ws with
  | nil => exact .miss [] [] ⟨List.forall_mem_nil _, List.forall_mem_nil _⟩
  | cons w ws ih =>
    obtain ⟨above, rest⟩ := List.pairwise_cons.mp h
    rcases Nat.lt_trichotomy w.index i with lt | here | gt
    · cases ih rest with
      | hit low c high here around => exact .hit (w :: low) c high here (around.cons lt)
      | miss low high around => exact .miss (w :: low) high (around.cons lt)
    · exact .hit [] w ws here ⟨List.forall_mem_nil _, here ▸ above⟩
    · refine .miss [] (w :: ws) ⟨List.forall_mem_nil _, ?_⟩
      exact List.forall_mem_cons.mpr ⟨gt, fun b hb => Nat.lt_trans gt (above b hb)⟩

section
variable {low high : List Word} {w : Word} {i v : Nat}

theorem search_hit (here : w.index = i) (around : Around i low high) :
    search (low ++ w :: high) i = .found low.length w := by
  induction low with
  | nil => simp [search, here]
  | cons a low ih =>
    obtain ⟨lt, below⟩ := List.forall_mem_cons.mp around.below
    rw [List.cons_append, search, if_pos lt, ih ⟨below, around.above⟩]
    rfl

theorem search_miss (around : Around i low high) : search (low ++ high) i = .gap low.length := by
  induction low with
  | nil =>
    cases high with
    | nil => rfl
    | cons b high =>
      have gt := around.above b List.mem_cons_self
      rw [List.nil_append, search, if_neg (by omega), if_neg (by omega)]
      rfl
  | cons a low ih =>
    obtain ⟨lt, below⟩ := List.forall_mem_cons.mp around.below
    rw [List.cons_append, search, if_pos lt, ih ⟨below, around.above⟩]
    rfl

theorem hasBit_hit (here : w.index = v / 64) (around : Around (v / 64) low high) :
    hasBit (low ++ w :: high) v = (w.bits &&& bitOf v != 0#64) := by
  rw [hasBit, search_hit here around]

theorem hasBit_miss (around : Around (v / 64) low high) : hasBit (low ++ high) v = false := by
  rw [hasBit, search_miss around]

theorem insertIdx_length (low high : List Word) (w : Word) :
    (low ++ high).insertIdx low.length w = low ++ w :: high := by
  induction low with
  | nil => rfl
  | cons a low ih => exact congrArg (a :: ·) ih

theorem insertBit?_hit (here : w.index = v / 64) (around : Around (v / 64) low high) :
    insertBit? (low ++ w :: high) v =
      if w.bits &&& bitOf v ≠ 0#64 then none
      else some (low ++ { w with bits := w.bits ||| bitOf v } :: high) := by
  rw [insertBit?, search_hit here around]
  simp only [List.set_append_right, Nat.le_refl, Nat.sub_self, List.set_cons_zero]

theorem insertBit?_miss (around : Around (v / 64) low high) :
    insertBit? (low ++ high) v = some (low ++ wordOf v :: high) := by
  rw [insertBit?, search_miss around]
  exact congrArg some (insertIdx_length low high (wordOf v))

theorem eraseBit?_hit (here : w.index = v / 64) (around : Around (v / 64) low high) :
    eraseBit? (low ++ w :: high) v =
      if w.bits &&& bitOf v = 0#64 then none
      else if w.bits &&& ~~~bitOf v = 0#64 then some (low ++ high)
      else some (low ++ { w with bits := w.bits &&& ~~~bitOf v } :: high) := by
  rw [eraseBit?, search_hit here around]
  simp only [List.set_append_right, List.eraseIdx_append_of_length_le, Nat.le_refl, Nat.sub_self,
    List.set_cons_zero, List.eraseIdx_cons_zero]

theorem eraseBit?_miss (around : Around (v / 64) low high) :
    eraseBit? (low ++ high) v = none := by
  rw [eraseBit?, search_miss around]

end

/-! ## Single bits -/

theorem getLsbD_bitOf (v k : Nat) : (bitOf v).getLsbD k = decide (k = v % 64) := by
  simp only [bitOf, BitVec.getLsbD_shiftLeft, BitVec.getLsbD_one]
  grind

theorem bitOf_ne_zero (v : Nat) : bitOf v ≠ 0#64 := by
  intro h
  have bit := getLsbD_bitOf v (v % 64)
  simp [h] at bit

theorem or_bitOf_ne_zero (x : BitVec 64) (v : Nat) : x ||| bitOf v ≠ 0#64 := by
  intro h
  exact bitOf_ne_zero v (BitVec.or_eq_zero_iff.mp h).2

/-! ## Operations on one number keep a run canonical -/

theorem Canonical.tail {a : Word} {as : List Word} (h : Canonical (a :: as)) : Canonical as :=
  ⟨(List.pairwise_cons.mp h.ascending).2, (List.forall_mem_cons.mp h.populated).2⟩

section
variable {low high : List Word} {w : Word} {i : Nat}

theorem ascending_hit (h : Ascending (low ++ high)) (here : w.index = i)
    (around : Around i low high) : Ascending (low ++ w :: high) := by
  obtain ⟨lowAsc, highAsc, cross⟩ := List.pairwise_append.mp h
  refine List.pairwise_append.mpr
    ⟨lowAsc, List.pairwise_cons.mpr ⟨here ▸ around.above, highAsc⟩, ?_⟩
  intro a ha b hb
  rcases List.mem_cons.mp hb with rfl | hb
  · exact here ▸ around.below a ha
  · exact cross a ha b hb

theorem Canonical.without (h : Canonical (low ++ w :: high)) : Canonical (low ++ high) := by
  have sub : (low ++ high).Sublist (low ++ w :: high) :=
    List.Sublist.append_left (List.sublist_cons_self w high) low
  exact ⟨h.ascending.sublist sub, fun a ha => h.populated a (sub.subset ha)⟩

theorem Canonical.insert (h : Canonical (low ++ high)) (here : w.index = i)
    (around : Around i low high) (bits : w.bits ≠ 0#64) : Canonical (low ++ w :: high) := by
  refine ⟨ascending_hit h.ascending here around, ?_⟩
  intro a ha
  rcases List.mem_append.mp ha with low | high
  · exact h.populated a (List.mem_append_left _ low)
  · rcases List.mem_cons.mp high with rfl | high
    · exact bits
    · exact h.populated a (List.mem_append_right _ high)

end

theorem canonical_insertBit? {ws : List Word} {v : Nat} (h : Canonical ws) :
    ∀ ws', insertBit? ws v = some ws' → Canonical ws' := by
  intro ws' changed
  cases parted h.ascending (v / 64) with
  | hit low w high here around =>
    rw [insertBit?_hit here around] at changed
    split at changed
    · cases changed
    · obtain rfl := Option.some.inj changed
      exact h.without.insert here around (or_bitOf_ne_zero _ v)
  | miss low high around =>
    rw [insertBit?_miss around] at changed
    obtain rfl := Option.some.inj changed
    exact h.insert rfl around (bitOf_ne_zero v)

theorem canonical_eraseBit? {ws : List Word} {v : Nat} (h : Canonical ws) :
    ∀ ws', eraseBit? ws v = some ws' → Canonical ws' := by
  intro ws' changed
  cases parted h.ascending (v / 64) with
  | hit low w high here around =>
    rw [eraseBit?_hit here around] at changed
    split at changed
    · cases changed
    · split at changed
      · obtain rfl := Option.some.inj changed
        exact h.without
      · rename_i rest
        obtain rfl := Option.some.inj changed
        exact h.without.insert here around rest
  | miss low high around =>
    rw [eraseBit?_miss around] at changed
    cases changed

/-! ## What a walk meets -/

/-- Go through two runs as a walk does. -/
theorem runs_induction {motive : List Word → List Word → Prop}
    (leftEnd : ∀ bs, motive [] bs) (rightEnd : ∀ a as, motive as [] → motive (a :: as) [])
    (less : ∀ a as b bs, a.index < b.index → motive as (b :: bs) → motive (a :: as) (b :: bs))
    (greater : ∀ a as b bs, b.index < a.index → motive (a :: as) bs → motive (a :: as) (b :: bs))
    (equal : ∀ a as b bs, a.index = b.index → motive as bs → motive (a :: as) (b :: bs))
    (as bs : List Word) : motive as bs := by
  induction as generalizing bs with
  | nil => exact leftEnd bs
  | cons a as outer =>
    induction bs with
    | nil => exact rightEnd a as (outer [])
    | cons b bs inner =>
      rcases Nat.lt_trichotomy a.index b.index with lt | eq | gt
      · exact less a as b bs lt (outer (b :: bs))
      · exact equal a as b bs eq (outer bs)
      · exact greater a as b bs gt inner

section
variable {a b : Word} {as bs : List Word}

theorem walk_rightEnd : walk (a :: as) [] = .left a :: walk as [] := rfl

theorem walk_less (h : a.index < b.index) :
    walk (a :: as) (b :: bs) = .left a :: walk as (b :: bs) := by
  rw [walk, walkHead, if_pos h]

theorem walk_greater (h : b.index < a.index) :
    walk (a :: as) (b :: bs) = .right b :: walk (a :: as) bs := by
  rw [walk, walkHead, if_neg (by omega), if_pos h]

theorem walk_equal (h : a.index = b.index) :
    walk (a :: as) (b :: bs) = .both a b :: walk as bs := by
  rw [walk, walkHead, if_neg (by omega), if_neg (by omega)]

end

/-- The index at which a meeting happens. -/
def Meeting.index : Meeting → Nat
  | .left a => a.index
  | .right b => b.index
  | .both a _ => a.index

/-- The meetings of two runs: every word that the other run has no match for, and every match. -/
def Meeting.Of (as bs : List Word) : Meeting → Prop
  | .left a => a ∈ as ∧ ∀ b ∈ bs, a.index ≠ b.index
  | .right b => b ∈ bs ∧ ∀ a ∈ as, a.index ≠ b.index
  | .both a b => a ∈ as ∧ b ∈ bs ∧ a.index = b.index

theorem mem_walk {as bs : List Word} (ha : Ascending as) (hb : Ascending bs) {m : Meeting} :
    m ∈ walk as bs ↔ m.Of as bs := by
  induction as, bs using runs_induction with
  | leftEnd bs => cases m <;> simp [walk, Meeting.Of]
  | rightEnd a as ih =>
    rw [walk_rightEnd, List.mem_cons, ih (List.pairwise_cons.mp ha).2 hb]
    cases m <;> simp [Meeting.Of]
  | less a as b bs lt ih =>
    obtain ⟨_, rest⟩ := List.pairwise_cons.mp ha
    obtain ⟨above, _⟩ := List.pairwise_cons.mp hb
    rw [walk_less lt, List.mem_cons, ih rest hb]
    cases m <;> grind [Meeting.Of]
  | greater a as b bs gt ih =>
    obtain ⟨above, _⟩ := List.pairwise_cons.mp ha
    obtain ⟨_, rest⟩ := List.pairwise_cons.mp hb
    rw [walk_greater gt, List.mem_cons, ih ha rest]
    cases m <;> grind [Meeting.Of]
  | equal a as b bs eq ih =>
    obtain ⟨aboveA, restA⟩ := List.pairwise_cons.mp ha
    obtain ⟨aboveB, restB⟩ := List.pairwise_cons.mp hb
    rw [walk_equal eq, List.mem_cons, ih restA restB]
    cases m <;> grind [Meeting.Of]

theorem Meeting.Of.lt {as bs : List Word} {i : Nat} {m : Meeting} (h : m.Of as bs)
    (ha : ∀ a ∈ as, i < a.index) (hb : ∀ b ∈ bs, i < b.index) : i < m.index := by
  cases m with
  | left a => exact ha a h.1
  | right b => exact hb b h.1
  | both a b => exact ha a h.1

/-- A walk goes up. -/
theorem pairwise_walk {as bs : List Word} (ha : Ascending as) (hb : Ascending bs) :
    (walk as bs).Pairwise (fun m n => m.index < n.index) := by
  induction as, bs using runs_induction with
  | leftEnd bs => exact List.pairwise_map.mpr hb
  | rightEnd a as ih =>
    obtain ⟨above, rest⟩ := List.pairwise_cons.mp ha
    rw [walk_rightEnd]
    refine List.pairwise_cons.mpr ⟨fun m hm => ?_, ih rest hb⟩
    exact ((mem_walk rest hb).mp hm).lt above (List.forall_mem_nil _)
  | less a as b bs lt ih =>
    obtain ⟨above, rest⟩ := List.pairwise_cons.mp ha
    obtain ⟨aboveB, _⟩ := List.pairwise_cons.mp hb
    rw [walk_less lt]
    refine List.pairwise_cons.mpr ⟨fun m hm => ?_, ih rest hb⟩
    refine ((mem_walk rest hb).mp hm).lt above (List.forall_mem_cons.mpr ⟨lt, fun c hc => ?_⟩)
    exact Nat.lt_trans lt (aboveB c hc)
  | greater a as b bs gt ih =>
    obtain ⟨aboveA, _⟩ := List.pairwise_cons.mp ha
    obtain ⟨above, rest⟩ := List.pairwise_cons.mp hb
    rw [walk_greater gt]
    refine List.pairwise_cons.mpr ⟨fun m hm => ?_, ih ha rest⟩
    refine ((mem_walk ha rest).mp hm).lt (List.forall_mem_cons.mpr ⟨gt, fun c hc => ?_⟩) above
    exact Nat.lt_trans gt (aboveA c hc)
  | equal a as b bs eq ih =>
    obtain ⟨aboveA, restA⟩ := List.pairwise_cons.mp ha
    obtain ⟨aboveB, restB⟩ := List.pairwise_cons.mp hb
    rw [← eq] at aboveB
    rw [walk_equal eq]
    refine List.pairwise_cons.mpr ⟨fun m hm => ?_, ih restA restB⟩
    exact ((mem_walk restA restB).mp hm).lt aboveA aboveB

/-! ## Merging keeps runs canonical -/

section
variable {keep : Keep} {op : BitVec 64 → BitVec 64 → BitVec 64}

theorem Meeting.index_merged {m : Meeting} {w : Word} (h : m.merged keep op = some w) :
    w.index = m.index := by
  cases m <;> grind [Meeting.merged, Meeting.index]

theorem ascending_mergeWords {as bs : List Word} (ha : Ascending as) (hb : Ascending bs) :
    Ascending (mergeWords keep op as bs) := by
  refine List.Pairwise.filterMap _ ?_ (pairwise_walk ha hb)
  intro m n lt v hv w hw
  rw [Meeting.index_merged hv, Meeting.index_merged hw]
  exact lt

/-- Words that match are tested for zero; the others are not zero to begin with. -/
theorem canonical_mergeWords {as bs : List Word} (ha : Canonical as) (hb : Canonical bs) :
    Canonical (mergeWords keep op as bs) := by
  refine ⟨ascending_mergeWords ha.ascending hb.ascending, ?_⟩
  intro w hw
  obtain ⟨m, hm, merged⟩ := List.mem_filterMap.mp hw
  have origin := (mem_walk ha.ascending hb.ascending).mp hm
  cases m with
  | left a =>
    obtain ⟨_, rfl⟩ : keep.left = true ∧ a = w := by simpa [Meeting.merged] using merged
    exact ha.populated a origin.1
  | right b =>
    obtain ⟨_, rfl⟩ : keep.right = true ∧ b = w := by simpa [Meeting.merged] using merged
    exact hb.populated b origin.1
  | both a b =>
    obtain ⟨ne, rfl⟩ : op a.bits b.bits ≠ 0#64 ∧ ⟨a.index, op a.bits b.bits⟩ = w := by
      simpa [Meeting.merged] using merged
    exact ne

end

end MemFlow

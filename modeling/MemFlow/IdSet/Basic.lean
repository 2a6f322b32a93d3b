import MemFlow.IdSet.Run

/-!
# Sets of identifiers

A set of natural numbers, kept as a canonical run of words. Two sets with the same members are
therefore the same value. Each operation is the algorithm on runs that `IdSet.Run` has for it;
adding and taking out one number answers `none` where it leaves the run as it is.
-/

namespace MemFlow

/-- A finite set of identifiers, as its canonical run of words. -/
@[ext] structure IdSet where
  words : List Word
  ascending : Ascending words
  populated : Populated words

namespace IdSet

instance : DecidableEq IdSet := fun s t =>
  decidable_of_iff (s.words = t.words) ⟨fun h => IdSet.ext h, fun h => h ▸ rfl⟩

/-- The set with no members. -/
def empty : IdSet := ⟨[], List.Pairwise.nil, fun _ h => by cases h⟩

instance : EmptyCollection IdSet := ⟨empty⟩
instance : Inhabited IdSet := ⟨empty⟩

theorem canonical (s : IdSet) : Canonical s.words := ⟨s.ascending, s.populated⟩

/-- The set of a run that is canonical. -/
def ofCanonical (ws : List Word) (h : Canonical ws) : IdSet := ⟨ws, h.ascending, h.populated⟩

/-- The set whose only member is `v`. -/
def singleton (v : Nat) : IdSet where
  words := [wordOf v]
  ascending := List.pairwise_singleton _ _
  populated := by
    intro w hw
    rcases List.mem_singleton.mp hw with rfl
    exact bitOf_ne_zero v

/-- Merge two sets word by word. -/
def merge (keep : Keep) (op : BitVec 64 → BitVec 64 → BitVec 64) (s t : IdSet) : IdSet :=
  ofCanonical (mergeWords keep op s.words t.words) (canonical_mergeWords s.canonical t.canonical)

/-- The members of either set. -/
def union (s t : IdSet) : IdSet := merge ⟨true, true⟩ (· ||| ·) s t

/-- The members of both sets. -/
def inter (s t : IdSet) : IdSet := merge ⟨false, false⟩ (· &&& ·) s t

/-- The members of `s` that `t` lacks. -/
def sdiff (s t : IdSet) : IdSet := merge ⟨true, false⟩ (fun a b => a &&& ~~~b) s t

instance : Union IdSet := ⟨union⟩
instance : Inter IdSet := ⟨inter⟩
instance : SDiff IdSet := ⟨sdiff⟩

/-- The set with `v` added, if it was not there. -/
def insert? (s : IdSet) (v : Nat) : Option IdSet :=
  (insertBit? s.words v).pmap ofCanonical (canonical_insertBit? s.canonical)

/-- The set with `v` taken out, if it was there. -/
def erase? (s : IdSet) (v : Nat) : Option IdSet :=
  (eraseBit? s.words v).pmap ofCanonical (canonical_eraseBit? s.canonical)

/-- The set with `v` added. -/
def insert (s : IdSet) (v : Nat) : IdSet := (s.insert? v).getD s

/-- The set with `v` taken out. -/
def erase (s : IdSet) (v : Nat) : IdSet := (s.erase? v).getD s

/-- The set with every element of a list added. -/
def insertAll (s : IdSet) (vs : List Nat) : IdSet := vs.foldl insert s

/-- The elements of a list, in any order and with repeats. -/
def ofList (vs : List Nat) : IdSet := insertAll ∅ vs

/-- Whether `v` is a member: its bit in its word. -/
def contains (s : IdSet) (v : Nat) : Bool := hasBit s.words v

instance : Membership Nat IdSet := ⟨fun s v => s.contains v = true⟩

instance (v : Nat) (s : IdSet) : Decidable (v ∈ s) :=
  inferInstanceAs (Decidable (s.contains v = true))

instance : HasSubset IdSet := ⟨fun s t => ∀ v, v ∈ s → v ∈ t⟩

/-- Whether the set has no members. -/
def isEmpty (s : IdSet) : Bool := s.words.isEmpty

/-- The number of members. -/
def size (s : IdSet) : Nat := s.words.foldr (fun w n => w.count + n) 0

/-- A cursor before the first member. -/
def cursor (s : IdSet) : Cursor := ⟨none, s.words⟩

/-- The members, each once, in ascending order: what a cursor gives until it ends. -/
def toList (s : IdSet) : List Nat := s.cursor.take s.size

/-- Whether the two sets share a member. -/
def meets (s t : IdSet) : Bool := meetWords s.words t.words

/-- Whether every member of `s` is one of `t`. -/
def isSubset (s t : IdSet) : Bool := isSubrun s.words t.words

/-- The members between braces, as in `{1, 7}`. -/
def text (s : IdSet) : String := "\x7b" ++ ", ".intercalate (s.toList.map toString) ++ "\x7d"

end IdSet

end MemFlow

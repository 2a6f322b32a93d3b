import MemFlow.Ident
import MemFlow.IdSet.Handle

/-!
# Sets of descriptors

A set of descriptor ids. Union and difference work on the ids alone. In an
intersection a side that holds the all-memory sentinel stands for everything,
so the other side is the result.

The operations that report a change are those of handles on the ids, and each reports
what the branch that it takes there reports. As values have no storage, they are run on
handles that share none.
-/

namespace MemFlow

/-- A set of descriptor ids, registered or not. -/
@[ext] structure DescSet where
  ids : IdSet
deriving DecidableEq

namespace DescSet

instance : EmptyCollection DescSet := ⟨⟨∅⟩⟩
instance : Inhabited DescSet := ⟨∅⟩
instance : Membership DescId DescSet := ⟨fun s d => d.num ∈ s.ids⟩

instance (d : DescId) (s : DescSet) : Decidable (d ∈ s) :=
  inferInstanceAs (Decidable (d.num ∈ s.ids))

/-- The set that stands for all memory. -/
def allMem : DescSet := ⟨.singleton DescId.allMem.num⟩

def isEmpty (s : DescSet) : Bool := s.ids.isEmpty

/-- The number of ids; a sentinel counts once. -/
def size (s : DescSet) : Nat := s.ids.size

/-- The ids in ascending order, so the sentinels come first. -/
def toList (s : DescSet) : List DescId := s.ids.toList.map DescId.mk

/-- The set with an id added. -/
def insert (s : DescSet) (d : DescId) : DescSet := ⟨s.ids.insert d.num⟩

/-- The set with an id taken out. -/
def erase (s : DescSet) (d : DescId) : DescSet := ⟨s.ids.erase d.num⟩

/-- The set with an id added, and whether it was new. -/
def add (s : DescSet) (d : DescId) : DescSet × Bool :=
  match s.ids.insert? d.num with
  | none => (s, false)
  | some ids => (⟨ids⟩, true)

/-- The set with an id taken out, and whether it was there. -/
def remove (s : DescSet) (d : DescId) : DescSet × Bool :=
  match s.ids.erase? d.num with
  | none => (s, false)
  | some ids => (⟨ids⟩, true)

/-- The set with every id of a list added. -/
def insertAll (s : DescSet) (ds : List DescId) : DescSet := ds.foldl insert s

/-- The ids of a list, in any order and with repeats. -/
def ofList (ds : List DescId) : DescSet := insertAll ∅ ds

/-- Whether the set stands for all memory. -/
def hasAllMem (s : DescSet) : Bool := DescId.allMem ∈ s

/-- Whether two sets share an id. -/
def meets (s t : DescSet) : Bool := s.ids.meets t.ids

/-- A handle on the ids of a set. -/
def held (s : DescSet) (version : Nat) : Handle := ⟨version, s.ids⟩

/-- The set behind a handle, and what was answered with it. -/
def ofHandle (r : Handle × Bool) : DescSet × Bool := (⟨r.1.set⟩, r.2)

/-- The ids of either set, and whether `s` lacked one of them. -/
def union (s t : DescSet) : DescSet × Bool := ofHandle ((s.held 0).union 2 (t.held 1))

/-- The ids of `s` that `t` lacks, and whether one was lost. -/
def diff (s t : DescSet) : DescSet × Bool := ofHandle ((s.held 0).subtract 2 (t.held 1))

/-- Keep what `h` and `k` have in common, and answer whether that differs from what `h` had.
A handle on a set that stands for all memory has everything in common with the other one. -/
def common (fresh : Nat) (h k : Handle) : Handle × Bool :=
  if k.set.contains DescId.allMem.num then (h, false)
  else if h.set.contains DescId.allMem.num then (k, h.set ≠ k.set)
  else h.inter fresh k

/-- What `s` and `t` have in common, and whether it differs from `s`. -/
def intersect (s t : DescSet) : DescSet × Bool := ofHandle (common 2 (s.held 0) (t.held 1))

end DescSet

end MemFlow

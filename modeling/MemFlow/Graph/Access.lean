import MemFlow.DescSet

/-!
# Memory accesses

What a statement is known to write, and what it may write and read.
-/

namespace MemFlow

/-- What one statement does to memory. -/
structure Access where
  /-- The one location that is certainly written. -/
  certain : Option DescId := none
  /-- Locations that may be written. -/
  possible : DescSet := ∅
  /-- Locations that may be read. -/
  reads : DescSet := ∅
deriving DecidableEq

namespace Access

/-- Whether anything is written. -/
def writes (s : Access) : Bool := s.certain.isSome || !s.possible.isEmpty

/-- Everything that may be written. -/
def written (s : Access) : DescSet :=
  match s.certain with
  | some d => s.possible.insert d
  | none => s.possible

/-- Every descriptor of the access: the certain write, then the possible writes
and the reads in ascending order. -/
def named (s : Access) : List DescId :=
  s.certain.toList ++ s.possible.toList ++ s.reads.toList

end Access

end MemFlow

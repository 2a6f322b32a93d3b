import MemFlow.Registry.Basic
import MemFlow.Descriptor.Relation
import MemFlow.DescSet

/-!
# Alias questions about sets of descriptors

Whether a set may touch the bytes of a descriptor or of another set, whether it
accounts for a descriptor, whether it includes global storage. An id that is not
registered could be anything, so every question about one is answered yes.
-/

namespace MemFlow.DescSet

/-- Whether a property holds of a descriptor; it does for an unregistered one. -/
def holdsOrUnknown (r : Registry) (d : DescId) (p : Descriptor → Bool) : Bool :=
  match r.desc? d with
  | some desc => p desc
  | none => true

/-- Whether some member may touch the bytes of `d`. -/
def mayOverlap (s : DescSet) (r : Registry) (d : DescId) : Bool :=
  if s.isEmpty then false
  else if s.hasAllMem || d = .allMem then true
  else holdsOrUnknown r d fun target =>
    s.toList.any fun m => holdsOrUnknown r m (·.overlaps target)

/-- Whether some member may touch the bytes of some member of `t`. -/
def mayOverlapSet (s : DescSet) (r : Registry) (t : DescSet) : Bool :=
  if s.isEmpty || t.isEmpty then false
  else if s.hasAllMem || t.hasAllMem then true
  else if s.meets t then true
  else t.toList.any (s.mayOverlap r)

/-- Whether `d` is a member or a sentinel member covers it. -/
def accountsFor (s : DescSet) (r : Registry) (d : DescId) : Bool :=
  if d ∈ s || s.hasAllMem then true
  else holdsOrUnknown r d fun target =>
    (s.toList.takeWhile (·.isSentinel)).any fun m => holdsOrUnknown r m (·.covers target)

/-- Whether some member is a sentinel or lives in global storage. -/
def reachesGlobal (s : DescSet) (r : Registry) : Bool :=
  s.toList.any fun m => m.isSentinel || holdsOrUnknown r m (·.storage.isGlobal)

end MemFlow.DescSet

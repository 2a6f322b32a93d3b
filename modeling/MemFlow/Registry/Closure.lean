import MemFlow.Registry.Basic
import MemFlow.Descriptor.Relation
import MemFlow.DescSet

/-!
# Overlap closures

The closure of a descriptor is the set of registered descriptors that overlap
it. Under the strict reading it also has the global and import sentinels, for
callers that must assume an unknown callee. Closures are appended to a set; a
request that names an unregistered descriptor appends nothing.

Only the descriptors of one variable and the sentinels can overlap an ordinary
descriptor, so only those are looked at. In the closure of a set, a member that
stands for a whole variable already accounts for the other members there.
-/

namespace MemFlow.Registry

/-- The registered descriptors that can overlap `target`: everything for a
sentinel, and otherwise those of the same variable and the sentinels. -/
def candidates (r : Registry) (target : Descriptor) : List Descriptor :=
  match target.sentinel? with
  | some _ => r.descs.toList
  | none =>
    let sameBase := (r.var? target.base).elim [] (·.descs)
    sameBase.filterMap r.desc? ++ r.descs.toList.take DescId.firstOrdinary

/-- The ids that the closure of `target` consists of. -/
def overlapping (r : Registry) (strict : Bool) (target : Descriptor) : List DescId :=
  ((r.candidates target).filter (·.overlaps target)).map (·.id) ++
    (if strict then [.globalMem, .importMem] else [])

/-- Append the closure of a descriptor. -/
def closeInto (r : Registry) (strict : Bool) (d : DescId) (out : DescSet) :
    DescSet × Except RegistryError Unit :=
  match r.get d with
  | .ok target => (out.insertAll (r.overlapping strict target), .ok ())
  | .error e => (out, .error e)

/-- The members in the order in which they are closed: those without an extent
come first, and the order is otherwise kept. -/
def wholeFirst (members : List Descriptor) : List Descriptor :=
  members.filter (·.kind = .unbound) ++ members.filter (·.kind ≠ .unbound)

/-- Append the closures of `members` one by one. An ordinary member whose
variable is in `closed` is passed over, and one without an extent closes its
variable. -/
def closeMembers (r : Registry) (strict : Bool) :
    List VarId → List Descriptor → DescSet → DescSet × Except RegistryError Unit
  | _, [], out => (out, .ok ())
  | closed, m :: ms, out =>
    let ordinary := m.sentinel?.isNone
    if ordinary && closed.contains m.base then r.closeMembers strict closed ms out
    else
      let closed' := if ordinary && m.kind = .unbound then m.base :: closed else closed
      match r.closeInto strict m.id out with
      | (out', .ok ()) => r.closeMembers strict closed' ms out'
      | (out', .error e) => (out', .error e)

/-- Append the closure of a set: that of all memory if the set holds it, and
otherwise the closures of the members, all of which must be registered. -/
def closeSetInto (r : Registry) (strict : Bool) (s out : DescSet) :
    DescSet × Except RegistryError Unit :=
  if s.hasAllMem then r.closeInto strict .allMem out
  else
    match s.toList.mapM r.get with
    | .ok members => r.closeMembers strict [] (wholeFirst members) out
    | .error e => (out, .error e)

/-- Read an append to the empty set as a result. -/
def result : DescSet × Except RegistryError Unit → Except RegistryError DescSet
  | (out, .ok ()) => .ok out
  | (_, .error e) => .error e

/-- The closure of a descriptor. -/
def closure (r : Registry) (strict : Bool) (d : DescId) : Except RegistryError DescSet :=
  result (r.closeInto strict d ∅)

/-- The closure of a set of descriptors. -/
def closureOfSet (r : Registry) (strict : Bool) (s : DescSet) : Except RegistryError DescSet :=
  result (r.closeSetInto strict s ∅)

end MemFlow.Registry

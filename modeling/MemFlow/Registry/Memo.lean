import MemFlow.Registry.Closure

/-!
# Remembered closures

A memo answers closure questions over one registry and remembers the closure of
every descriptor it was asked about. A set is walked in ascending order, so the
members before an unregistered one are remembered even though the question
fails.
-/

namespace MemFlow

/-- Closures already computed over a registry, for one reading of strictness. -/
structure ClosureMemo where
  registry : Registry
  strict : Bool
  known : List (DescId × DescSet) := []

namespace ClosureMemo

/-- The number of closures remembered. -/
def size (m : ClosureMemo) : Nat := m.known.length

/-- The closure of a descriptor, computed at most once. -/
def ask (m : ClosureMemo) (d : DescId) : ClosureMemo × Except RegistryError DescSet :=
  match m.known.lookup d with
  | some s => (m, .ok s)
  | none =>
    match m.registry.closure m.strict d with
    | .ok s => ({ m with known := (d, s) :: m.known }, .ok s)
    | .error e => (m, .error e)

/-- Add the closures of the listed descriptors to `acc`, up to the first that is
not registered. -/
def askAll (m : ClosureMemo) :
    List DescId → DescSet → ClosureMemo × Except RegistryError DescSet
  | [], acc => (m, .ok acc)
  | d :: ds, acc =>
    match m.ask d with
    | (m', .ok s) => m'.askAll ds (acc.union s).1
    | (m', .error e) => (m', .error e)

/-- The union of the closures of the members of a set. -/
def askSet (m : ClosureMemo) (s : DescSet) : ClosureMemo × Except RegistryError DescSet :=
  m.askAll s.toList ∅

end ClosureMemo

end MemFlow

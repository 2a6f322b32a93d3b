import MemFlow.IdSet.Basic

/-!
# Handles on shared sets

A handle pairs a set with the version of the storage that holds it. Copying a
handle copies the version, so two handles of one version share storage; an
operation that changes the members takes a version nobody holds, and one that
changes nothing keeps the version it has. The one operation that adopts another
handle's version is a union into an empty set.

A `Shelf` is a table of named handles together with the next unused version, and
`Shelf.apply` runs one operation on it.
-/

namespace MemFlow

/-- A set and the version of its storage. -/
structure Handle where
  version : Nat
  set : IdSet
deriving DecidableEq

namespace Handle

/-- Whether two handles hold the same storage. -/
def shares (h k : Handle) : Bool := h.version == k.version

/-- Put new members into a handle; storage moves to `fresh` only if they differ
from the old ones. Also answers whether they differ. -/
def replace (fresh : Nat) (h : Handle) (s : IdSet) : Handle × Bool :=
  if s = h.set then (h, false) else (⟨fresh, s⟩, true)

/-- Add `v`, and answer whether it was new. -/
def insert (fresh : Nat) (h : Handle) (v : Nat) : Handle × Bool :=
  match h.set.insert? v with
  | none => (h, false)
  | some s => (⟨fresh, s⟩, true)

/-- Take `v` out, and answer whether it was there. -/
def erase (fresh : Nat) (h : Handle) (v : Nat) : Handle × Bool :=
  match h.set.erase? v with
  | none => (h, false)
  | some s => (⟨fresh, s⟩, true)

/-- Add every element of a list. All the storage that is written on the way is
the same fresh one. -/
def insertAll (fresh : Nat) (h : Handle) (vs : List Nat) : Handle :=
  vs.foldl (fun h v => (h.insert fresh v).1) h

/-- Take every member out. -/
def clear (fresh : Nat) (h : Handle) : Handle :=
  if h.set.isEmpty then h else ⟨fresh, ∅⟩

/-- Add the members of `k`, and answer whether any was new. An empty handle
becomes a copy of `k`. -/
def union (fresh : Nat) (h k : Handle) : Handle × Bool :=
  if k.set.isEmpty || h.shares k then (h, false)
  else if h.set.isEmpty then (k, true)
  else h.replace fresh (h.set ∪ k.set)

/-- Keep the members of `k` only, and answer whether any was lost. -/
def inter (fresh : Nat) (h k : Handle) : Handle × Bool :=
  if h.set.isEmpty || h.shares k then (h, false)
  else if k.set.isEmpty then (h.clear fresh, true)
  else h.replace fresh (h.set ∩ k.set)

/-- Take the members of `k` out, and answer whether any was lost. -/
def subtract (fresh : Nat) (h k : Handle) : Handle × Bool :=
  if h.set.isEmpty || k.set.isEmpty then (h, false)
  else if h.shares k then (h.clear fresh, true)
  else h.replace fresh (h.set \ k.set)

end Handle

/-- One operation on a named handle. A second name is the argument. -/
inductive SetOp where
  | new
  | singleton (v : Nat)
  | ofList (vs : List Nat)
  | copy (source : String)
  | insertAll (vs : List Nat)
  | insert (v : Nat)
  | erase (v : Nat)
  | clear
  | union (arg : String)
  | inter (arg : String)
  | subtract (arg : String)
  | contains (v : Nat)
  | meets (arg : String)
  | isSubset (arg : String)
  | sameMembers (arg : String)
  | shares (arg : String)
  | size
  | isEmpty
  | text
deriving DecidableEq, Repr

/-- The second handle an operation reads. -/
def SetOp.argument : SetOp → Option String
  | .copy t | .union t | .inter t | .subtract t => some t
  | .meets t | .isSubset t | .sameMembers t | .shares t => some t
  | _ => none

/-- What an operation answers besides its effect. -/
inductive SetReply where
  | done
  | flag (b : Bool)
  | count (n : Nat)
  | text (s : String)
deriving DecidableEq, Repr

/-- Named handles, and a version above all that they hold. -/
structure Shelf where
  handles : List (String × Handle) := []
  next : Nat := 0

namespace Shelf

/-- The handle of a name, if it has one. -/
def find? (s : Shelf) (name : String) : Option Handle := s.handles.lookup name

/-- Give a name a handle, in place of the one it had. -/
def put (s : Shelf) (name : String) (h : Handle) : Shelf :=
  { s with handles := (name, h) :: s.handles.filter (·.1 != name) }

/-- Give a name that has no handle an empty one with storage of its own. -/
def mention (s : Shelf) (name : String) : Shelf :=
  match s.find? name with
  | some _ => s
  | none => { s.put name ⟨s.next, ∅⟩ with next := s.next + 1 }

/-- The handle of a name; a name without one reads as empty. -/
def get (s : Shelf) (name : String) : Handle := (s.find? name).getD ⟨s.next, ∅⟩

/-- The handle and the answer of one operation on `h` with argument `k`, with
`fresh` for storage that has to be new. -/
def step (fresh : Nat) (h k : Handle) : SetOp → Handle × SetReply
  | .new => (⟨fresh, ∅⟩, .done)
  | .singleton v => (⟨fresh, .singleton v⟩, .done)
  | .ofList vs => (⟨fresh, .ofList vs⟩, .done)
  | .copy _ => (k, .done)
  | .insertAll vs => (h.insertAll fresh vs, .done)
  | .insert v => let r := h.insert fresh v; (r.1, .flag r.2)
  | .erase v => let r := h.erase fresh v; (r.1, .flag r.2)
  | .clear => (h.clear fresh, .done)
  | .union _ => let r := h.union fresh k; (r.1, .flag r.2)
  | .inter _ => let r := h.inter fresh k; (r.1, .flag r.2)
  | .subtract _ => let r := h.subtract fresh k; (r.1, .flag r.2)
  | .contains v => (h, .flag (h.set.contains v))
  | .meets _ => (h, .flag (h.set.meets k.set))
  | .isSubset _ => (h, .flag (h.set.isSubset k.set))
  | .sameMembers _ => (h, .flag (h.set = k.set))
  | .shares _ => (h, .flag (h.shares k))
  | .size => (h, .count h.set.size)
  | .isEmpty => (h, .flag h.set.isEmpty)
  | .text => (h, .text h.set.text)

/-- Run one operation on the handle `name`. Names that are mentioned for the
first time get empty handles first. -/
def apply (s : Shelf) (name : String) (op : SetOp) : Shelf × SetReply :=
  let s := s.mention name
  let s := match op.argument with
    | some t => s.mention t
    | none => s
  let arg := s.get (op.argument.getD name)
  let r := step s.next (s.get name) arg op
  ({ s.put name r.1 with next := s.next + 1 }, r.2)

end Shelf

end MemFlow

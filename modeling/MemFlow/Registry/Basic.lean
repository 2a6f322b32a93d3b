import MemFlow.Descriptor.Basic
import MemFlow.Error

/-!
# The registry of descriptors

A registry holds the variables and descriptors of one scope. Descriptors are
interned: one specification has one id, however often it is registered. Ids are
handed out in order and never change meaning, and a refused request changes
nothing.

A new variable or descriptor is numbered by how many came before it, without a
bound. A registry is meant for fewer than 2^32 of each, so that every id it hands
out has 32 bits; nothing here refuses the next one.
-/

namespace MemFlow

/-- A declared variable and the descriptors registered for it, oldest first. A
sentinel is not listed with its variable. -/
structure Variable where
  name : String
  storage : Storage
  descs : List DescId := []
deriving DecidableEq, Repr

/-- The variables and descriptors of one scope. -/
structure Registry where
  /-- Indexed by variable id. -/
  vars : Array Variable
  /-- Indexed by descriptor id. -/
  descs : Array Descriptor
  /-- The id of every specification seen, the newest first. -/
  interned : List (Spec × DescId)
deriving Repr

namespace Registry

/-- The descriptor of a sentinel, whose variable has the same number. -/
def sentinelDesc (s : Sentinel) (storage : Storage) : Descriptor :=
  { base := ⟨s.id.num⟩, kind := .unbound, id := s.id, storage }

/-- The registry that holds the sentinels and nothing else. -/
def initial : Registry where
  vars := #[⟨"<all-mem>", .globalVar, []⟩, ⟨"<global-mem>", .globalVar, []⟩,
    ⟨"<import-mem>", .imported, []⟩]
  descs := #[sentinelDesc .allMem .globalVar, sentinelDesc .globalMem .globalVar,
    sentinelDesc .importMem .imported]
  interned := [((sentinelDesc .importMem .imported).toSpec, .importMem),
    ((sentinelDesc .globalMem .globalVar).toSpec, .globalMem),
    ((sentinelDesc .allMem .globalVar).toSpec, .allMem)]

instance : Inhabited Registry := ⟨initial⟩

/-- The variable of an id. -/
def var? (r : Registry) (v : VarId) : Option Variable := r.vars[v.num]?

/-- The descriptor of an id. -/
def desc? (r : Registry) (d : DescId) : Option Descriptor := r.descs[d.num]?

/-- The descriptor of an id, or the error that there is none. -/
def get (r : Registry) (d : DescId) : Except RegistryError Descriptor :=
  match r.desc? d with
  | some desc => .ok desc
  | none => .error (.unregistered d)

/-- Whether the registry handed the id out. -/
def isRegistered (r : Registry) (d : DescId) : Bool := d.num < r.descs.size

/-- The number of descriptors, sentinels included. -/
def count (r : Registry) : Nat := r.descs.size

/-- Declare a variable and answer its id. -/
def declare (r : Registry) (name : String) (storage : Storage) : Registry × VarId :=
  ({ r with vars := r.vars.push { name, storage } }, ⟨r.vars.size⟩)

/-- Give a specification that was not seen before the next id. -/
def add (r : Registry) (spec : Spec) (storage : Storage) : Registry :=
  let id : DescId := ⟨r.descs.size⟩
  { vars := r.vars.modify spec.base.num fun v => { v with descs := v.descs ++ [id] }
    descs := r.descs.push { spec with id, storage }
    interned := (spec, id) :: r.interned }

/-- Answer the id of a specification, which is registered if it is new. A
specification of a sentinel's variable means the sentinel. -/
def register (r : Registry) (spec : Spec) : Registry × Except RegistryError DescId :=
  match r.var? spec.base with
  | none => (r, .error (.undeclared spec.base))
  | some v =>
    match Sentinel.ofVar? spec.base with
    | some s => (r, .ok s.id)
    | none =>
      if spec.validExtent then
        match r.interned.lookup spec.normalize with
        | some id => (r, .ok id)
        | none => (r.add spec.normalize v.storage, .ok ⟨r.descs.size⟩)
      else (r, .error (.badExtent spec.base spec.offset spec.size))

/-- The descriptors that `after` holds beyond those of `before`. -/
def newDescs (before after : Registry) : List Descriptor := after.descs.toList.drop before.count

end Registry

/-- A request that may change a registry. -/
inductive RegistryEdit where
  | declare (name : String) (storage : Storage)
  | register (spec : Spec)
deriving DecidableEq, Repr

namespace Registry

/-- The registry after one request, whether it was granted or refused. -/
def edit (r : Registry) : RegistryEdit → Registry
  | .declare name storage => (r.declare name storage).1
  | .register spec => (r.register spec).1

/-- The registry after a sequence of requests. -/
def run (r : Registry) (edits : List RegistryEdit) : Registry := edits.foldl edit r

end Registry

end MemFlow

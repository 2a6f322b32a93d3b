import MemFlow.Ident

/-!
# Memory descriptors

A descriptor names an abstract memory location: a variable and, when it is
known, the extent of bytes inside it. Three sentinels summarise memory without
listing it: all memory, every global and imported variable, every imported
variable.
-/

namespace MemFlow

/-- Where a variable lives. -/
inductive Storage where
  | localVar
  | globalVar
  | imported
deriving DecidableEq, Repr

/-- Global and imported variables are the ones an unknown callee can see. -/
def Storage.isGlobal : Storage → Bool
  | .localVar => false
  | .globalVar | .imported => true

/-- What is known of the bytes an access touches. -/
inductive Kind where
  /-- Nothing: the access is somewhere in the variable. -/
  | unbound
  /-- All of the extent, and only it, is accessed. -/
  | exact
  /-- Some byte of the extent is accessed. -/
  | range
deriving DecidableEq, Repr

/-- The kind's name in a descriptor's text. -/
def Kind.text : Kind → String
  | .unbound => "Unbound"
  | .exact => "Exact"
  | .range => "Range"

/-- Facts that tell apart two descriptors of one extent. -/
structure Flags where
  /-- The access may not happen at all. -/
  mayOnly : Bool := false
  /-- The variable's address escapes. -/
  addrTaken : Bool := false
deriving DecidableEq, Repr

/-- The summaries. -/
inductive Sentinel where
  | allMem
  | globalMem
  | importMem
deriving DecidableEq, Repr

namespace Sentinel

/-- The summary's name in a descriptor's text. -/
def text : Sentinel → String
  | .allMem => "FullMem"
  | .globalMem => "GlobalMem"
  | .importMem => "ImportMem"

/-- The summary a variable stands for. -/
def ofVar? (v : VarId) : Option Sentinel :=
  if v = .allMem then some .allMem
  else if v = .globalMem then some .globalMem
  else if v = .importMem then some .importMem
  else none

/-- The descriptor that every registry holds for the summary. -/
def id : Sentinel → DescId
  | .allMem => .allMem
  | .globalMem => .globalMem
  | .importMem => .importMem

/-- Whether the summary includes variables of a storage class. -/
def includes : Sentinel → Storage → Bool
  | .allMem, _ => true
  | .globalMem, st => st.isGlobal
  | .importMem, st => st = .imported

end Sentinel

/-- Offsets and sizes are below this bound. -/
def addressLimit : Nat := Nat.pow 2 64

/-- What is asked of the registry: a variable, an extent and its exactness. -/
structure Spec where
  base : VarId
  kind : Kind
  offset : Nat := 0
  size : Nat := 0
  flags : Flags := {}
deriving DecidableEq, Repr

namespace Spec

/-- An unbound access has no extent, whatever was asked. -/
def normalize (s : Spec) : Spec :=
  match s.kind with
  | .unbound => { s with offset := 0, size := 0 }
  | .exact | .range => s

/-- An extent is valid if it has a byte and ends below the address limit; an
unbound access has none to check. -/
def validExtent (s : Spec) : Bool :=
  s.kind = .unbound || (0 < s.size && s.offset + s.size < addressLimit)

end Spec

/-- A registered descriptor. -/
structure Descriptor extends Spec where
  id : DescId
  storage : Storage
deriving DecidableEq, Repr

namespace Descriptor

/-- Whether all of the extent is known to be accessed, if anything is. -/
def isExact (d : Descriptor) : Bool := d.kind = .exact

/-- Whether a write through the descriptor always lands on every byte. -/
def isDefinite (d : Descriptor) : Bool := d.isExact && !d.flags.mayOnly

/-- One past the last byte of the extent, at most the highest address. -/
def stop (d : Descriptor) : Nat := min (d.offset + d.size) (addressLimit - 1)

/-- The summary the descriptor stands for, if it is a sentinel. -/
def sentinel? (d : Descriptor) : Option Sentinel := Sentinel.ofVar? d.base

/-- The text of a descriptor: `md0(FullMem)`, `md5(var3 unbound)`,
`md3(var3[0..4] Exact)`. -/
def text (d : Descriptor) : String :=
  match d.sentinel?, d.kind with
  | some s, _ => s!"{d.id.text}({s.text})"
  | none, .unbound => s!"{d.id.text}({d.base.text} unbound)"
  | none, k => s!"{d.id.text}({d.base.text}[{d.offset}..{d.stop}] {k.text})"

end Descriptor

end MemFlow

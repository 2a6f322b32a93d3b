import MemFlow.Descriptor.Basic

/-!
# Relations between descriptors

Three relations that depend on the two descriptors alone: sharing a byte,
containing every byte, and containing every byte of a write that is certain on
both sides.
-/

namespace MemFlow.Descriptor

/-- Whether the two locations may share a byte. -/
def overlaps (a b : Descriptor) : Bool :=
  match a.sentinel?, b.sentinel? with
  | some _, some _ => true
  | some s, none => s.includes b.storage
  | none, some s => s.includes a.storage
  | none, none =>
    a.base = b.base &&
      (a.kind = .unbound || b.kind = .unbound || (a.offset < b.stop && b.offset < a.stop))

/-- Whether the location of `a` contains that of `b`. -/
def covers (a b : Descriptor) : Bool :=
  match a.sentinel?, b.sentinel? with
  | some .allMem, _ => true
  | _, some .allMem => false
  | some .globalMem, some _ => true
  | some .importMem, some s => s = .importMem
  | some s, none => s.includes b.storage
  | none, some _ => false
  | none, none =>
    a.base = b.base &&
      (a.kind = .unbound || (b.kind ≠ .unbound && a.offset ≤ b.offset && b.stop ≤ a.stop))

/-- Whether a write through `a` certainly overwrites all of a certain write
through `b`. -/
def overwrites (a b : Descriptor) : Bool :=
  a.isDefinite && b.isDefinite && a.base = b.base && a.offset ≤ b.offset && b.stop ≤ a.stop

end MemFlow.Descriptor

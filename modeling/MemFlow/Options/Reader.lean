import MemFlow.Graph.View
import MemFlow.Options.Basic

/-!
# Reading options

Options come as untyped values. A record is an object whose unknown fields are
passed over, or the list of its fields in order, from which the last ones may be
missing. A choice is its name, or an object with that name as its only key and
null as its value. Anything else is refused.
-/

namespace MemFlow

/-- An untyped value. -/
inductive Value where
  | null
  | bool (b : Bool)
  /-- An integer from zero. -/
  | nat (n : Nat)
  /-- Any other number. -/
  | otherNumber
  | text (s : String)
  | list (vs : List Value)
  /-- The fields of an object, each name once. -/
  | object (fields : List (String × Value))

namespace Value

/-- Integers are read below this bound. -/
def natLimit : Nat := Nat.pow 2 64

def bool? : Value → Option Bool
  | .bool b => some b
  | _ => none

def nat? : Value → Option Nat
  | .nat n => if n < natLimit then some n else none
  | _ => none

/-- Read a value that may be null. -/
def orNull? {α : Type} (read : Value → Option α) : Value → Option (Option α)
  | .null => some none
  | v => (read v).map some

/-- The field values of a record, in the order of `names`; a field that is not
given is none. -/
def record? (names : List String) : Value → Option (List (Option Value))
  | .object fields => some (names.map fun name => fields.lookup name)
  | .list vs =>
    if vs.length ≤ names.length then
      some (vs.map some ++ List.replicate (names.length - vs.length) none)
    else none
  | _ => none

/-- Read a field, which has a default if it is not given. -/
def field? {α : Type} (read : Value → Option α) (default : α) : Option Value → Option α
  | none => some default
  | some v => read v

/-- The name of a choice. -/
def name? : Value → Option String
  | .text s => some s
  | .object [(s, .null)] => some s
  | _ => none

end Value

open Value

/-- Read the options of an analysis. -/
def Options.read? (v : Value) : Option Options :=
  match v.record? ["strict_overlap", "parallel_gen_kill", "max_rpo_sweeps"] with
  | some [strict, parallel, sweeps] => do
    let strict ← field? bool? false strict
    let parallel ← field? bool? false parallel
    let sweepLimit ← field? (orNull? nat?) none sweeps
    some { strict, parallel, sweepLimit }
  | _ => none

/-- Read the configuration for several scopes. -/
def ScopeConfig.read? (v : Value) : Option ScopeConfig :=
  match v.record? ["max_parallelism", "fail_fast"] with
  | some [parallelism, fast] => do
    let maxParallelism ← field? (fun v => (nat? v).map some) none parallelism
    let failFast ← field? bool? false fast
    some { maxParallelism, failFast }
  | _ => none

/-- Read a strategy. -/
def Strategy.read? (v : Value) : Option Strategy :=
  match v.name? with
  | some "ReversePostorder" => some .reversePostorder
  | some "Worklist" => some .worklist
  | _ => none

/-- Read a block order. -/
def BlockOrder.read? (v : Value) : Option BlockOrder :=
  match v.name? with
  | some "ReversePostorder" => some .reversePostorder
  | some "Arbitrary" => some .arbitrary
  | _ => none

def BlockOrder.text : BlockOrder → String
  | .reversePostorder => "ReversePostorder"
  | .arbitrary => "Arbitrary"

end MemFlow

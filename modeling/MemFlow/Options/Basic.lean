/-!
# Options

What a caller can choose about an analysis and about running several of them.
-/

namespace MemFlow

/-- How the equations are solved. -/
inductive Strategy where
  /-- Sweep the blocks in reverse postorder until a sweep changes nothing. -/
  | reversePostorder
  /-- Keep a queue of the blocks that may change. -/
  | worklist
deriving DecidableEq, Repr

instance : Inhabited Strategy := ⟨.reversePostorder⟩

def Strategy.text : Strategy → String
  | .reversePostorder => "ReversePostorder"
  | .worklist => "Worklist"

/-- What can be chosen for one analysis. -/
structure Options where
  /-- Every write may touch globals and imports. -/
  strict : Bool := false
  /-- Blocks are analysed apart from each other. -/
  parallel : Bool := false
  /-- Sweeps allowed before the worklist takes over. -/
  sweepLimit : Option Nat := none
deriving DecidableEq, Repr

/-- What can be chosen for solving several scopes. -/
structure ScopeConfig where
  /-- The most workers to use, if it was chosen. -/
  maxParallelism : Option Nat := none
  /-- Whether the first failing scope fails them all. -/
  failFast : Bool := false
deriving DecidableEq, Repr

namespace ScopeConfig

/-- The number of workers for a number of scopes, out of the cores there are:
at least one, and no more than there are scopes. -/
def workers (c : ScopeConfig) (cores scopes : Nat) : Nat :=
  max 1 (min (c.maxParallelism.getD cores) scopes)

end ScopeConfig

/-- A change to the options. -/
inductive OptionsEdit where
  | strict (on : Bool)
  | parallel (on : Bool)
  | sweepLimit (limit : Nat)
deriving DecidableEq, Repr

namespace Options

def edit (o : Options) : OptionsEdit → Options
  | .strict on => { o with strict := on }
  | .parallel on => { o with parallel := on }
  | .sweepLimit limit => { o with sweepLimit := some limit }

end Options

end MemFlow

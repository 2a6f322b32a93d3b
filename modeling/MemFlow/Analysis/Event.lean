import MemFlow.Analysis.Scopes

/-!
# Events

What an analysis reports about itself while it runs. The events of a step are
read off its input and its result, in the order in which they happen.
-/

namespace MemFlow

/-- How important an event is. -/
inductive Level where
  | trace
  | debug
  | warn
deriving DecidableEq, Repr

def Level.text : Level → String
  | .trace => "TRACE"
  | .debug => "DEBUG"
  | .warn => "WARN"

/-- The value of one field of an event. -/
inductive FieldValue where
  | text (s : String)
  | count (n : Nat)
  | flag (b : Bool)
deriving DecidableEq, Repr

/-- Something that happened. -/
inductive Event where
  /-- A descriptor got an id of its own. -/
  | registered (desc : Descriptor)
  /-- The reverse postorder cannot be swept. -/
  | orderUnusable (cause : AnalysisError)
  /-- The effect of a block is known. -/
  | blockEffect (block : BlockId) (effect : Effect)
  /-- The effects of all blocks are known. -/
  | effectsDone (blocks defs exprs : Nat) (parallel : Bool)
  /-- The out of a block changed. -/
  | outChanged (problem : Problem) (block : BlockId)
  /-- The sweep limit was reached. -/
  | limitReached (problem : Problem) (sweeps : Nat)
  /-- A problem is solved. -/
  | converged (problem : Problem) (strategy : Strategy) (sweeps visits : Nat) (fellBack : Bool)
  /-- Several scopes are being solved. -/
  | scopesStarted (scopes workers : Nat)

namespace Event

def level : Event → Level
  | .registered _ | .blockEffect _ _ | .outChanged _ _ => .trace
  | .limitReached _ _ => .warn
  | .orderUnusable _ | .effectsDone _ _ _ _ | .converged _ _ _ _ _ | .scopesStarted _ _ => .debug

def message : Event → String
  | .registered _ => "registered memory descriptor"
  | .orderUnusable _ => "reverse postorder unusable, only the worklist can run"
  | .blockEffect _ _ => "local sets computed"
  | .effectsDone _ _ _ _ => "gen/kill sets computed"
  | .outChanged _ _ => "out changed"
  | .limitReached _ _ => "RPO sweep limit reached, continuing with worklist"
  | .converged _ _ _ _ _ => "dataflow system converged"
  | .scopesStarted _ _ => "solving scopes in parallel"

def fields : Event → List (String × FieldValue)
  | .registered d => [("md", .text d.text)]
  | .orderUnusable e => [("err", .text e.message)]
  | .blockEffect b s => [("block", .text b.text), ("must_gen", .count s.mustGen.size),
      ("may_gen", .count s.mayGen.size), ("must_killed", .count s.mustKilled.size),
      ("may_killed", .count s.mayKilled.size)]
  | .effectsDone blocks defs exprs parallel => [("blocks", .count blocks), ("defs", .count defs),
      ("exprs", .count exprs), ("parallel", .flag parallel)]
  | .outChanged p b => [("system", .text p.text), ("block", .text b.text)]
  | .limitReached p sweeps => [("system", .text p.text), ("sweeps", .count sweeps)]
  | .converged p strategy sweeps visits fellBack => [("system", .text p.text),
      ("strategy", .text strategy.text), ("sweeps", .count sweeps), ("visits", .count visits),
      ("fell_back", .flag fellBack)]
  | .scopesStarted scopes workers => [("scopes", .count scopes), ("threads", .count workers)]

end Event

/-- The events of a registry growing from `before` to `after`. -/
def Registry.events (before after : Registry) : List Event :=
  (before.newDescs after).map .registered

/-- The event of validating a graph: none if its reverse postorder is sound. -/
def DenseGraph.events (d : DenseGraph) : List Event :=
  match d.rpo with
  | .error e => [.orderUnusable e]
  | .ok _ => []

/-- The events of computing the effects of a graph, whether that succeeds or
not. -/
def BlockEffects.events (g : FlowGraph) (result : Except AnalysisError BlockEffects) : List Event :=
  match result with
  | .ok k =>
    k.graph.events ++ (k.graph.blocks.zip k.effects.toList).map (fun p => .blockEffect p.1 p.2) ++
      [.effectsDone k.graph.size k.inventory.defs.length k.inventory.exprs.length
        k.options.parallel]
  | .error _ =>
    match DenseGraph.ofFlowGraph g with
    | .ok d => d.events
    | .error _ => []

namespace Solution

/-- The events of solving one problem. -/
def problemEvents (s : Solution) (p : Problem) : List Event :=
  let run := (s.fixpoint p).run
  let changed (b : Fin s.graph.size) : Event := .outChanged p (s.graph.block b)
  (Visit.changedBlocks run.sweeps.flatten).map changed ++
    (if run.fellBack then [.limitReached p run.sweepCount] else []) ++
    (Visit.changedBlocks run.visits).map changed ++
    [.converged p s.strategy run.sweepCount run.visitCount run.fellBack]

/-- The events of solving the four problems. -/
def events (s : Solution) : List Event := Problem.all.flatMap s.problemEvents

end Solution

/-- The events that a caller sees when scopes are solved: all those of a single
scope, and for several of them only that they were started. -/
def Scope.events (scopes : List Scope) (strategy : Strategy) (config : ScopeConfig)
    (cores : Nat) : List Event :=
  match scopes with
  | [] => []
  | [s] =>
    let step := BlockEffects.compute s.graph s.registry s.options
    let solved := match step with
      | .ok k => k.solve strategy
      | .error e => .error e
    BlockEffects.events s.graph step ++
      (match solved with
        | .ok solution => solution.events
        | .error _ => [])
  | _ => [.scopesStarted scopes.length (config.workers cores scopes.length)]

end MemFlow

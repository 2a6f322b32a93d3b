import MemFlow.Fixpoint
import MemFlow.Effect
import MemFlow.Options.Basic

/-!
# An analysis from graph to solution

An analysis has two steps. `BlockEffects.compute` validates the graph and what
its statements access, and computes the effect of every block.
`BlockEffects.solve` solves the four problems they give: reaching definitions,
available reaching definitions, available expressions, and the blocks from which
a block can be entered.
-/

namespace MemFlow

/-- The four problems, in the order in which they are solved. -/
inductive Problem where
  | reach
  | availReach
  | availExpr
  | liveIn
deriving DecidableEq, Repr

namespace Problem

def text : Problem → String
  | .reach => "reach"
  | .availReach => "avail_reach"
  | .availExpr => "avail_expr"
  | .liveIn => "live_in_bb"

def all : List Problem := [.reach, .availReach, .availExpr, .liveIn]

end Problem

/-- The effects of all blocks of a validated graph, by position. -/
structure BlockEffects where
  options : Options
  graph : DenseGraph
  inventory : Inventory
  effects : Vector Effect graph.size

/-- The solved problems of one analysis. -/
structure Solution where
  strategy : Strategy
  graph : DenseGraph
  effects : Vector Effect graph.size
  reach : Fixpoint graph.size
  availReach : Fixpoint graph.size
  availExpr : Fixpoint graph.size
  liveIn : Fixpoint graph.size

/-- The fixpoint of a problem. -/
def Solution.fixpoint (s : Solution) : Problem → Fixpoint s.graph.size
  | .reach => s.reach
  | .availReach => s.availReach
  | .availExpr => s.availExpr
  | .liveIn => s.liveIn

namespace BlockEffects

/-- Validate a graph and what its statements access, and compute the effect of
every block. -/
def compute (g : FlowGraph) (r : Registry) (options : Options) :
    Except AnalysisError BlockEffects :=
  match hg : DenseGraph.ofFlowGraph g with
  | .error e => .error e
  | .ok graph =>
    match Inventory.ofFlowGraph g r with
    | .error e => .error e
    | .ok inventory =>
      match hl : Effect.ofFlowGraph g inventory r options.strict options.parallel with
      | .error e => .error e
      | .ok effects =>
        .ok ⟨options, graph, inventory, ⟨effects.toArray, by
          have hs := DenseGraph.blocks_ofFlowGraph hg
          simp [DenseGraph.size, hs, Effect.length_ofFlowGraph hl]⟩⟩

/-- The effect of a block of the graph. -/
def effect? (k : BlockEffects) (b : BlockId) : Option Effect :=
  (k.graph.position? b).map fun i => k.effects[i]

/-- The equations of a problem. -/
def equations (k : BlockEffects) : Problem → Equations k.graph.size
  | .reach => {
      confluence := .union, domain := k.inventory.defIds
      gen := Vector.ofFn fun i => k.effects[i].mayGen
      kill := Vector.ofFn fun i => k.effects[i].mustKilled }
  | .availReach => {
      confluence := .inter, domain := k.inventory.defIds
      gen := Vector.ofFn fun i => k.effects[i].mustGen
      kill := Vector.ofFn fun i => k.effects[i].mayKilled }
  | .availExpr => {
      confluence := .inter, domain := k.inventory.exprIds
      gen := Vector.ofFn fun i => k.effects[i].genExpr
      kill := Vector.ofFn fun i => k.effects[i].killedExpr }
  | .liveIn => {
      confluence := .union, domain := .ofList (k.graph.blocks.map (·.num))
      gen := Vector.ofFn fun i => .singleton (k.graph.block i).num
      kill := Vector.ofFn fun _ => ∅ }

/-- The solution in which every problem is solved in the same way. -/
def solvedBy (k : BlockEffects) (strategy : Strategy)
    (solver : Equations k.graph.size → Fixpoint k.graph.size) : Solution where
  strategy
  graph := k.graph
  effects := k.effects
  reach := solver (k.equations .reach)
  availReach := solver (k.equations .availReach)
  availExpr := solver (k.equations .availExpr)
  liveIn := solver (k.equations .liveIn)

/-- Solve the four problems. Only sweeping can fail, and only if the graph's
reverse postorder is not sound. -/
def solve (k : BlockEffects) (strategy : Strategy) : Except AnalysisError Solution :=
  match strategy, k.graph.rpo with
  | .worklist, _ => .ok (k.solvedBy .worklist (·.solveByWorklist k.graph.shape))
  | .reversePostorder, .error e => .error e
  | .reversePostorder, .ok order =>
    .ok (k.solvedBy .reversePostorder (·.solveBySweeps k.graph.shape order k.options.sweepLimit))

end BlockEffects

namespace Solution

/-- What holds where a block is entered, for one problem. -/
def in? (s : Solution) (p : Problem) (b : BlockId) : Option IdSet :=
  (s.graph.position? b).map fun i => (s.fixpoint p).ins[i]

/-- What holds where a block is left, for one problem. -/
def out? (s : Solution) (p : Problem) (b : BlockId) : Option IdSet :=
  (s.graph.position? b).map fun i => (s.fixpoint p).outs[i]

/-- The effect of a block of the graph. -/
def effect? (s : Solution) (b : BlockId) : Option Effect :=
  (s.graph.position? b).map fun i => s.effects[i]

end Solution

/-- Both steps of an analysis. -/
def analyse (g : FlowGraph) (r : Registry) (options : Options) (strategy : Strategy) :
    Except AnalysisError Solution :=
  match BlockEffects.compute g r options with
  | .error e => .error e
  | .ok k => k.solve strategy

end MemFlow

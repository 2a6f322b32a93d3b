import MemFlow.Graph.View
import MemFlow.Graph.Walk

/-!
# Building a flow graph

Blocks, statements and expressions are numbered in the order in which they are
added. An edge is recorded at each of its ends that exists when it is added, and
a statement in its block if that exists, so a graph may be built in any order
and checked afterwards.

The numbers are unbounded. A graph is meant for fewer than 2^32 blocks, statements
and expressions each, so that every id has 32 bits; nothing here refuses the next one.
-/

namespace MemFlow

/-- A block under construction. -/
structure Block where
  stmts : List StmtId := []
  succs : List BlockId := []
  preds : List BlockId := []
deriving DecidableEq, Repr

/-- A statement, with the block it was added to. -/
structure Statement where
  block : BlockId
  access : Option Access
  exprs : List ExprId
deriving DecidableEq

/-- A flow graph under construction. The first block is the entry unless
another one is chosen. -/
structure GraphBuilder where
  entry : BlockId := ⟨0⟩
  blocks : Array Block := #[]
  stmts : Array Statement := #[]
  exprs : Array DescSet := #[]

namespace GraphBuilder

/-- The block of an id. -/
def block? (c : GraphBuilder) (b : BlockId) : Option Block := c.blocks[b.num]?

/-- Every block id, oldest first. -/
def blockIds (c : GraphBuilder) : List BlockId := (List.range c.blocks.size).map BlockId.mk

def preds (c : GraphBuilder) (b : BlockId) : List BlockId := (c.block? b).elim [] (·.preds)

def succs (c : GraphBuilder) (b : BlockId) : List BlockId := (c.block? b).elim [] (·.succs)

def stmtsOf (c : GraphBuilder) (b : BlockId) : List StmtId := (c.block? b).elim [] (·.stmts)

/-- The block a statement was added to, whether or not it exists. -/
def blockOf (c : GraphBuilder) (s : StmtId) : Option BlockId := c.stmts[s.num]?.map (·.block)

/-- Add an empty block. -/
def addBlock (c : GraphBuilder) : GraphBuilder := { c with blocks := c.blocks.push {} }

/-- Choose the entry, which need not exist. -/
def setEntry (c : GraphBuilder) (b : BlockId) : GraphBuilder := { c with entry := b }

/-- Add an edge. -/
def addEdge (c : GraphBuilder) (source target : BlockId) : GraphBuilder :=
  let blocks := c.blocks.modify source.num fun b => { b with succs := b.succs ++ [target] }
  { c with blocks := blocks.modify target.num fun b => { b with preds := b.preds ++ [source] } }

/-- Add a statement that evaluates `exprs` and then makes the
access `access`. -/
def addStmt (c : GraphBuilder) (block : BlockId) (access : Option Access)
    (exprs : List ExprId) : GraphBuilder :=
  let id : StmtId := ⟨c.stmts.size⟩
  { c with
    blocks := c.blocks.modify block.num fun b => { b with stmts := b.stmts ++ [id] }
    stmts := c.stmts.push ⟨block, access, exprs⟩ }

/-- Add an expression that reads `uses`. -/
def addExpr (c : GraphBuilder) (uses : DescSet) : GraphBuilder :=
  { c with exprs := c.exprs.push uses }

/-- The successors of a block that exist. -/
def liveSuccs (c : GraphBuilder) (b : BlockId) : List BlockId :=
  (c.succs b).filter (·.num < c.blocks.size)

/-- The blocks that can be reached from the entry, in reverse postorder. -/
def reversePostorder (c : GraphBuilder) : List BlockId :=
  if c.entry.num < c.blocks.size then (Walk.start c.liveSuccs c.blocks.size c.entry).finished
  else []

/-- The graph as an analysis reads it. -/
def toFlowGraph (c : GraphBuilder) : FlowGraph where
  entry := c.entry
  blocks := c.blockIds
  rpo := c.reversePostorder
  preds := c.preds
  succs := c.succs
  stmts := c.stmtsOf
  access s := c.stmts[s.num]?.bind (·.access)
  exprs s := c.stmts[s.num]?.elim [] (·.exprs)
  uses e := c.exprs[e.num]?

end GraphBuilder

/-- One step of building a graph. -/
inductive BuildStep where
  | addBlock
  | setEntry (block : BlockId)
  | addEdge (source target : BlockId)
  | addStmt (block : BlockId) (access : Option Access) (exprs : List ExprId)
  | addExpr (uses : DescSet)
deriving DecidableEq

namespace GraphBuilder

/-- The graph after one step. -/
def step (c : GraphBuilder) : BuildStep → GraphBuilder
  | .addBlock => c.addBlock
  | .setEntry b => c.setEntry b
  | .addEdge source target => c.addEdge source target
  | .addStmt b access exprs => c.addStmt b access exprs
  | .addExpr uses => c.addExpr uses

/-- The graph after a sequence of steps. -/
def run (c : GraphBuilder) (steps : List BuildStep) : GraphBuilder := steps.foldl step c

end GraphBuilder

end MemFlow

import MemFlow.Graph.Access

/-!
# Flow graphs

What an analysis reads of a program: its blocks and edges, the statements of
each block, and what statements and expressions access. Nothing
promises that the parts agree with each other.
-/

namespace MemFlow

/-- The order in which the blocks are asked for. -/
inductive BlockOrder where
  /-- Reverse postorder from the entry. -/
  | reversePostorder
  /-- Every block, in the order in which the graph keeps them. -/
  | arbitrary
deriving DecidableEq, Repr

/-- The parts of a program that an analysis reads. -/
structure FlowGraph where
  entry : BlockId
  /-- Every block, in the order in which the graph keeps them. -/
  blocks : List BlockId
  /-- The blocks in reverse postorder from the entry. -/
  rpo : List BlockId
  preds : BlockId → List BlockId
  succs : BlockId → List BlockId
  /-- The statements of a block in execution order. -/
  stmts : BlockId → List StmtId
  /-- The access of a statement, if it touches memory. -/
  access : StmtId → Option Access
  /-- The expressions a statement evaluates before it writes. -/
  exprs : StmtId → List ExprId
  /-- The locations an expression reads, if it is known. -/
  uses : ExprId → Option DescSet

/-- The blocks in the order asked for. -/
def FlowGraph.inOrder (g : FlowGraph) : BlockOrder → List BlockId
  | .reversePostorder => g.rpo
  | .arbitrary => g.blocks

end MemFlow

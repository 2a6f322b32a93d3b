import MemFlow.Graph.View

/-!
# Flow graphs given as tables

A graph that is nothing but tables. The orders are taken as they stand. A key
without a row has nothing, and of several rows for a key the last one counts.
-/

namespace MemFlow

/-- The tables of a graph. -/
structure GraphTable where
  entry : BlockId
  blocks : List BlockId
  rpo : List BlockId
  preds : List (BlockId × List BlockId) := []
  succs : List (BlockId × List BlockId) := []
  stmts : List (BlockId × List StmtId) := []
  access : List (StmtId × Access) := []
  exprs : List (StmtId × List ExprId) := []
  uses : List (ExprId × DescSet) := []

namespace GraphTable

/-- The last row of a key. -/
def row? {κ α : Type} [BEq κ] (rows : List (κ × α)) (key : κ) : Option α :=
  rows.reverse.lookup key

/-- The graph as an analysis reads it. -/
def toFlowGraph (t : GraphTable) : FlowGraph where
  entry := t.entry
  blocks := t.blocks
  rpo := t.rpo
  preds b := (row? t.preds b).getD []
  succs b := (row? t.succs b).getD []
  stmts b := (row? t.stmts b).getD []
  access s := row? t.access s
  exprs s := (row? t.exprs s).getD []
  uses e := row? t.uses e

end GraphTable

end MemFlow

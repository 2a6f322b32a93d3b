import MemFlow.Error
import MemFlow.Graph.View
import MemFlow.Graph.Walk

/-!
# Validated graphs

A graph is accepted if its blocks are listed once each and include the entry,
every neighbour is listed, both ends of an edge know it, and every block can be
reached. An accepted graph is renumbered by position in its block list. Its
reverse postorder is judged separately: a bad one only rules out sweeping in
that order.
-/

namespace MemFlow

/-- The shape of a validated graph, over positions in the block list. -/
structure Shape (n : Nat) where
  entry : Fin n
  preds : Vector (List (Fin n)) n
  succs : Vector (List (Fin n)) n

/-- A validated graph. -/
structure DenseGraph where
  blocks : List BlockId
  shape : Shape blocks.length
  /-- The reverse postorder, or what is wrong with it. -/
  rpo : Except AnalysisError (List (Fin blocks.length))

/-- The first element that stands in `seen` or earlier in the list. -/
def firstRepeat {α : Type} [DecidableEq α] : List α → List α → Option α
  | _, [] => none
  | seen, a :: as => if a ∈ seen then some a else firstRepeat (a :: seen) as

namespace FlowGraph

/-- The first neighbour that is not listed, block by block with predecessors
before successors. -/
def strayNeighbour? (g : FlowGraph) : Option BlockId :=
  g.blocks.findSome? fun b => (g.preds b ++ g.succs b).find? (· ∉ g.blocks)

/-- The first block with a successor that does not know it. -/
def unansweredSucc? (g : FlowGraph) : Option BlockId :=
  g.blocks.find? fun b => (g.succs b).any fun s => b ∉ g.preds s

/-- The first block with a predecessor that does not know it. -/
def unansweredPred? (g : FlowGraph) : Option BlockId :=
  g.blocks.find? fun b => (g.preds b).any fun p => b ∉ g.succs p

/-- The first block that cannot be reached from the entry. -/
def unreachable? (g : FlowGraph) : Option BlockId :=
  let reached := (Walk.start g.succs g.blocks.length g.entry).seen
  g.blocks.find? (· ∉ reached)

/-- The block at which the graph fails the first of the checks that it fails. -/
def malformedAt? (g : FlowGraph) : Option BlockId :=
  firstRepeat [] g.blocks
    <|> (if g.entry ∈ g.blocks then none else some g.entry)
    <|> g.strayNeighbour?
    <|> g.unansweredSucc?
    <|> g.unansweredPred?
    <|> g.unreachable?

/-- The first element of an order that is not listed as a block or that came
before. -/
def badStep? (g : FlowGraph) : List BlockId → List BlockId → Option BlockId
  | _, [] => none
  | seen, b :: bs => if b ∉ g.blocks ∨ b ∈ seen then some b else g.badStep? (b :: seen) bs

/-- The block at which the reverse postorder fails: it has to list every block
once and start at the entry. -/
def badOrderAt? (g : FlowGraph) : Option BlockId :=
  g.badStep? [] g.rpo
    <|> g.blocks.find? (· ∉ g.rpo)
    <|> (if g.rpo.head? = some g.entry then none else some g.entry)

/-- The positions of those of the given blocks that are listed. -/
def positions (g : FlowGraph) (bs : List BlockId) : List (Fin g.blocks.length) :=
  bs.filterMap g.blocks.finIdxOf?

/-- The reverse postorder over positions, if it is sound. -/
def denseOrder (g : FlowGraph) : Except AnalysisError (List (Fin g.blocks.length)) :=
  match g.badOrderAt? with
  | some b => .error (.malformed b)
  | none => .ok (g.positions g.rpo)

/-- The shape over positions, with the entry at a given one. -/
def denseShape (g : FlowGraph) (entry : Fin g.blocks.length) : Shape g.blocks.length where
  entry := entry
  preds := Vector.ofFn fun i => g.positions (g.preds g.blocks[i])
  succs := Vector.ofFn fun i => g.positions (g.succs g.blocks[i])

end FlowGraph

namespace DenseGraph

/-- Validate a graph. -/
def ofFlowGraph (g : FlowGraph) : Except AnalysisError DenseGraph :=
  match g.malformedAt?, g.blocks.finIdxOf? g.entry with
  | some b, _ => .error (.malformed b)
  | none, none => .error (.malformed g.entry)
  | none, some entry => .ok ⟨g.blocks, g.denseShape entry, g.denseOrder⟩

/-- Validation keeps the graph's own list of blocks. -/
theorem blocks_ofFlowGraph {g : FlowGraph} {d : DenseGraph} (h : ofFlowGraph g = .ok d) :
    d.blocks = g.blocks := by
  unfold ofFlowGraph at h
  split at h
  · cases h
  · cases h
  · cases h; rfl

/-- The number of blocks. -/
abbrev size (d : DenseGraph) : Nat := d.blocks.length

/-- The block at a position. -/
def block (d : DenseGraph) (i : Fin d.size) : BlockId := d.blocks[i]

/-- The position of a block of the graph. -/
def position? (d : DenseGraph) (b : BlockId) : Option (Fin d.size) := d.blocks.finIdxOf? b

end DenseGraph

end MemFlow

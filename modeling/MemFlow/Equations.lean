import MemFlow.IdSet.Basic
import MemFlow.DenseGraph

/-!
# Dataflow equations

A forward problem over the positions of a validated graph: the out of a block is
what it generates together with what comes in and is not killed, and its in
joins the outs of its predecessors. A union problem starts from nothing. An
intersection problem starts from everything, except that nothing is available
where the entry is entered.
-/

namespace MemFlow

/-- How the outs of several predecessors are joined. -/
inductive Confluence where
  | union
  | inter
deriving DecidableEq, Repr

/-- One forward problem. -/
structure Equations (n : Nat) where
  confluence : Confluence
  gen : Vector IdSet n
  kill : Vector IdSet n
  /-- Everything there is; an intersection starts from it. -/
  domain : IdSet

namespace Equations

variable {n : Nat}

/-- The out of a block, from its in. -/
def transfer (eq : Equations n) (b : Fin n) (input : IdSet) : IdSet :=
  (input \ eq.kill[b]) ∪ eq.gen[b]

/-- The in of a block, from the outs of its predecessors. -/
def incoming (eq : Equations n) (shape : Shape n) (b : Fin n) (outs : Vector IdSet n) : IdSet :=
  match eq.confluence, shape.preds[b] with
  | .union, ps => ps.foldl (fun acc p => acc ∪ outs[p]) ∅
  | .inter, [] => ∅
  | .inter, p :: ps =>
    if b = shape.entry then ∅ else ps.foldl (fun acc q => acc ∩ outs[q]) outs[p]

/-- The outs an iteration starts from. -/
def start (eq : Equations n) (shape : Shape n) : Vector IdSet n :=
  match eq.confluence with
  | .union => Vector.ofFn fun _ => ∅
  | .inter => Vector.ofFn fun b => if b = shape.entry then eq.transfer b ∅ else eq.domain

/-- Bring the out of one block up to date, and answer whether it changed. -/
def refresh (eq : Equations n) (shape : Shape n) (b : Fin n) (outs : Vector IdSet n) :
    Vector IdSet n × Bool :=
  let out := eq.transfer b (eq.incoming shape b outs)
  if out = outs[b] then (outs, false) else (outs.set b out, true)

/-- Every id that any out can hold. -/
def ids (eq : Equations n) : IdSet := eq.gen.toList.foldl (· ∪ ·) eq.domain

/-- No run of refreshes changes an out more often than this. -/
def capacity (eq : Equations n) : Nat := n * eq.ids.size

end Equations

end MemFlow

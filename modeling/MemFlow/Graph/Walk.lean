/-!
# Depth-first walks

A walk enters a node once, follows its successors in order, and finishes the
node after them. Listing the nodes with the last finished first gives the
reverse postorder, and the nodes entered are those that can be reached.
-/

namespace MemFlow

/-- What a walk has entered, and what it has finished with the last one first. -/
structure Walk (α : Type) where
  seen : List α := []
  finished : List α := []

namespace Walk

variable {α : Type} [DecidableEq α]

/-- Enter a node unless it was entered before. Nested entries are at most as
deep as `fuel`. -/
def visit (succs : α → List α) : Nat → Walk α → α → Walk α
  | 0, w, _ => w
  | fuel + 1, w, v =>
    if v ∈ w.seen then w
    else
      let w' := (succs v).foldl (visit succs fuel) { w with seen := v :: w.seen }
      { w' with finished := v :: w'.finished }

/-- The walk from a root through a graph of at most `size` nodes. -/
def start (succs : α → List α) (size : Nat) (root : α) : Walk α := visit succs size {} root

end Walk

end MemFlow

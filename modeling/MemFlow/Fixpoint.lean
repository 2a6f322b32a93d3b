import MemFlow.Equations

/-!
# Solving the equations

Two ways to visit the blocks until nothing changes. Sweeping goes through all
blocks in a fixed order, again and again; it may be limited to a number of
sweeps, and then the worklist takes over. The worklist is a queue that starts
with every block, and a block whose out changed puts its successors in line.

A run keeps every visit it made, those of each sweep and those of the worklist, and
whether it changed something. Counts and events are read off that record. Both ways
stop by themselves; the bound on their steps is never reached.
-/

namespace MemFlow

/-- A visit to a block, and whether it changed the block's out. -/
structure Visit (n : Nat) where
  block : Fin n
  changed : Bool
deriving DecidableEq, Repr

namespace Visit

/-- Whether one of the visits changed something. -/
def anyChanged {n : Nat} (visits : List (Visit n)) : Bool := visits.any (·.changed)

/-- The blocks that were changed, in the order of the visits. -/
def changedBlocks {n : Nat} (visits : List (Visit n)) : List (Fin n) :=
  (visits.filter (·.changed)).map (·.block)

end Visit

/-- What a run did on its way to the solution. -/
structure Run (n : Nat) where
  /-- The visits of each sweep, in order. -/
  sweeps : List (List (Visit n)) := []
  /-- The visits of the worklist, in order. -/
  visits : List (Visit n) := []
  /-- Whether the sweep limit was reached and the worklist took over. -/
  fellBack : Bool := false

namespace Run

/-- How many sweeps there were. -/
def sweepCount {n : Nat} (r : Run n) : Nat := r.sweeps.length

/-- How many visits there were. -/
def visitCount {n : Nat} (r : Run n) : Nat := r.sweeps.flatten.length + r.visits.length

end Run

/-- The solution of one problem. -/
structure Fixpoint (n : Nat) where
  ins : Vector IdSet n
  outs : Vector IdSet n
  run : Run n

namespace Equations

variable {n : Nat}

/-! ## Sweeping -/

/-- Bring the listed blocks up to date one after the other. Also lists the
visits. -/
def sweep (eq : Equations n) (shape : Shape n) :
    List (Fin n) → Vector IdSet n → Vector IdSet n × List (Visit n)
  | [], outs => (outs, [])
  | b :: bs, outs =>
    let (outs, changed) := eq.refresh shape b outs
    let (outs, rest) := eq.sweep shape bs outs
    (outs, ⟨b, changed⟩ :: rest)

/-- Where a series of sweeps ended. -/
structure Swept (n : Nat) where
  outs : Vector IdSet n
  sweeps : List (List (Visit n))
  /-- Whether the last sweep changed nothing. -/
  settled : Bool

/-- Sweep until a sweep changes nothing, but at most `k` times. -/
def sweepUpTo (eq : Equations n) (shape : Shape n) (order : List (Fin n)) :
    Nat → Vector IdSet n → Swept n
  | 0, outs => ⟨outs, [], false⟩
  | k + 1, outs =>
    let (outs, visits) := eq.sweep shape order outs
    if Visit.anyChanged visits then
      let later := eq.sweepUpTo shape order k outs
      { later with sweeps := visits :: later.sweeps }
    else ⟨outs, [visits], true⟩

/-! ## The worklist -/

/-- Put blocks at the end of the queue, except those that wait already. -/
def enqueue (queue : List (Fin n)) (bs : List (Fin n)) : List (Fin n) :=
  bs.foldl (fun q b => if b ∈ q then q else q ++ [b]) queue

/-- Work the queue off for at most `fuel` visits. The visits made are put in
front of `log`, the last one first. -/
def drain (eq : Equations n) (shape : Shape n) :
    Nat → List (Fin n) → Vector IdSet n → List (Visit n) → Vector IdSet n × List (Visit n)
  | 0, _, outs, log => (outs, log)
  | _ + 1, [], outs, log => (outs, log)
  | fuel + 1, b :: queue, outs, log =>
    let (outs, changed) := eq.refresh shape b outs
    let queue := if changed then enqueue queue shape.succs[b] else queue
    eq.drain shape fuel queue outs (⟨b, changed⟩ :: log)

/-- More visits than the worklist ever makes: every block once, and after each
change at most every block again. -/
def visitBound (eq : Equations n) : Nat := n + eq.capacity * n

/-- Work off a queue that holds every block. -/
def worklist (eq : Equations n) (shape : Shape n) (outs : Vector IdSet n) :
    Vector IdSet n × List (Visit n) :=
  let (outs, log) := eq.drain shape (eq.visitBound + 1) (List.finRange n) outs []
  (outs, log.reverse)

/-! ## Solutions -/

/-- The solution that a run ended with; the ins follow from the outs. -/
def finish (eq : Equations n) (shape : Shape n) (outs : Vector IdSet n) (run : Run n) :
    Fixpoint n :=
  ⟨Vector.ofFn fun b => eq.incoming shape b outs, outs, run⟩

/-- Solve with the worklist alone. -/
def solveByWorklist (eq : Equations n) (shape : Shape n) : Fixpoint n :=
  let (outs, visits) := eq.worklist shape (eq.start shape)
  eq.finish shape outs { visits }

/-- Solve by sweeping in the given order. After `limit` sweeps that did not
settle, the worklist goes on from where they ended. -/
def solveBySweeps (eq : Equations n) (shape : Shape n) (order : List (Fin n))
    (limit : Option Nat) : Fixpoint n :=
  let swept := eq.sweepUpTo shape order (limit.getD (eq.capacity + 1)) (eq.start shape)
  if swept.settled then eq.finish shape swept.outs { sweeps := swept.sweeps }
  else
    let (outs, visits) := eq.worklist shape swept.outs
    eq.finish shape outs { sweeps := swept.sweeps, visits, fellBack := true }

end Equations

end MemFlow

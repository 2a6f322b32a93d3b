import MemFlow.Inventory
import MemFlow.Registry.Memo

/-!
# Effects

What a block generates and kills, from its statements alone. One statement kills
another definition for certain if its certain write covers the other's, and
possibly if the closure of what it writes meets what the other writes. The
effect of a block is that of its statements one after the other, `andThen`.
Kills range over every definition of the graph, so they also apply to those that
flow in.

Closures are looked up in a memo. The memo is carried from block to block or
made anew for each; the effects are the same.
-/

namespace MemFlow

/-- What a piece of straight-line code generates and kills. -/
structure Effect where
  /-- Statements whose write may survive to the end. -/
  mayGen : IdSet := ∅
  /-- Statements whose certain write nothing later may overwrite. -/
  mustGen : IdSet := ∅
  /-- Statements whose certain write is certainly overwritten. -/
  mustKilled : IdSet := ∅
  /-- Statements whose write may be overwritten. -/
  mayKilled : IdSet := ∅
  /-- Expressions evaluated and not invalidated afterwards. -/
  genExpr : IdSet := ∅
  /-- Expressions whose operands may be changed. -/
  killedExpr : IdSet := ∅
deriving DecidableEq

/-- The error of a registry question asked on behalf of a statement. -/
def RegistryError.at (s : StmtId) : RegistryError → AnalysisError
  | .unregistered d => .unregistered s d
  | e => .registry s e

namespace Effect

/-- The effect of running `a` and then `b`. -/
def andThen (a b : Effect) : Effect where
  mayGen := (a.mayGen \ b.mustKilled) ∪ b.mayGen
  mustGen := (a.mustGen \ b.mayKilled) ∪ b.mustGen
  mustKilled := a.mustKilled ∪ b.mustKilled
  mayKilled := a.mayKilled ∪ b.mayKilled
  genExpr := (a.genExpr \ b.killedExpr) ∪ b.genExpr
  killedExpr := a.killedExpr ∪ b.killedExpr

/-- Whether `k` certainly overwrites the certain write of `v`. -/
def mustKills (r : Registry) (k v : Definition) : Except AnalysisError Bool :=
  match k.certain, v.certain with
  | some kd, some vd =>
    match r.get kd, r.get vd with
    | .error e, _ => .error (e.at k.stmt)
    | _, .error e => .error (e.at v.stmt)
    | .ok kd, .ok vd => .ok (kd.overwrites vd)
  | _, _ => .ok false

/-- The definitions that `k` certainly overwrites, among those listed. -/
def mustVictims (r : Registry) (k : Definition) :
    List Definition → Except AnalysisError (List Nat)
  | [] => .ok []
  | v :: vs =>
    match mustKills r k v, mustVictims r k vs with
    | .error e, _ => .error e
    | _, .error e => .error e
    | .ok hit, .ok rest => .ok (if hit then v.stmt.num :: rest else rest)

/-- The definitions whose writes meet a closure, among those listed. -/
def mayVictims (closure : DescSet) (vs : List Definition) : List Nat :=
  (vs.filter fun v => closure.meets v.written).map (·.stmt.num)

/-- The expressions whose operands meet a closure. -/
def exprVictims (closure : DescSet) (inv : Inventory) : List Nat :=
  (inv.exprs.filter fun e => closure.meets e.2).map (·.1.num)

/-- The effect of a statement that writes, given the closure of what it writes. It
evaluates its expressions before it writes, and never kills itself. -/
def ofDefinition (g : FlowGraph) (inv : Inventory) (r : Registry) (d : Definition)
    (closure : DescSet) : Except AnalysisError Effect :=
  let others := inv.defs.filter (·.stmt ≠ d.stmt)
  match mustVictims r d others with
  | .error e => .error e
  | .ok lost =>
    let killedExpr := IdSet.ofList (exprVictims closure inv)
    .ok {
      mayGen := .singleton d.stmt.num
      mustGen := if d.certain.isSome then .singleton d.stmt.num else ∅
      mustKilled := .ofList lost
      mayKilled := .ofList (mayVictims closure others)
      genExpr := .ofList ((g.exprs d.stmt).map (·.num)) \ killedExpr
      killedExpr }

/-- The effect of a statement, and the memo after it. -/
def ofStmt (g : FlowGraph) (inv : Inventory) (m : ClosureMemo) (s : StmtId) :
    Except AnalysisError (ClosureMemo × Effect) :=
  match inv.def? s with
  | none => .ok (m, { genExpr := .ofList ((g.exprs s).map (·.num)) })
  | some d =>
    match m.askSet d.written with
    | (_, .error e) => .error (e.at s)
    | (m', .ok closure) =>
      match ofDefinition g inv m.registry d closure with
      | .error e => .error e
      | .ok effect => .ok (m', effect)

/-- The effect of `acc` followed by the listed statements, and the memo after
them. -/
def ofStmts (g : FlowGraph) (inv : Inventory) (m : ClosureMemo) (acc : Effect) :
    List StmtId → Except AnalysisError (ClosureMemo × Effect)
  | [] => .ok (m, acc)
  | s :: ss =>
    match ofStmt g inv m s with
    | .error e => .error e
    | .ok (m', effect) => ofStmts g inv m' (acc.andThen effect) ss

/-- The effect of a block, and the memo after it. -/
def ofBlock (g : FlowGraph) (inv : Inventory) (m : ClosureMemo) (b : BlockId) :
    Except AnalysisError (ClosureMemo × Effect) :=
  ofStmts g inv m {} (g.stmts b)

/-- The effect of each block, with one memo carried along. -/
def ofBlocks (g : FlowGraph) (inv : Inventory) (m : ClosureMemo) :
    List BlockId → Except AnalysisError (List Effect)
  | [] => .ok []
  | b :: bs =>
    match ofBlock g inv m b with
    | .error e => .error e
    | .ok (m', effect) =>
      match ofBlocks g inv m' bs with
      | .error e => .error e
      | .ok rest => .ok (effect :: rest)

/-- The effect of each block, with a new memo for each. -/
def ofBlocksApart (g : FlowGraph) (inv : Inventory) (m : ClosureMemo) :
    List BlockId → Except AnalysisError (List Effect)
  | [] => .ok []
  | b :: bs =>
    match ofBlock g inv m b with
    | .error e => .error e
    | .ok (_, effect) =>
      match ofBlocksApart g inv m bs with
      | .error e => .error e
      | .ok rest => .ok (effect :: rest)

/-- The effect of each block of a graph. -/
def ofFlowGraph (g : FlowGraph) (inv : Inventory) (r : Registry) (strict parallel : Bool) :
    Except AnalysisError (List Effect) :=
  let memo : ClosureMemo := { registry := r, strict }
  if parallel then ofBlocksApart g inv memo g.blocks else ofBlocks g inv memo g.blocks

/-! ## One entry per block -/

theorem length_ofBlocks {g : FlowGraph} {inv : Inventory} {m : ClosureMemo} {bs : List BlockId}
    {ls : List Effect} (h : ofBlocks g inv m bs = .ok ls) : ls.length = bs.length := by
  induction bs generalizing m ls with
  | nil => cases h; rfl
  | cons b bs ih =>
    simp only [ofBlocks] at h
    split at h
    · cases h
    · split at h
      · cases h
      · rename_i hr
        cases h
        simp [ih hr]

theorem length_ofBlocksApart {g : FlowGraph} {inv : Inventory} {m : ClosureMemo}
    {bs : List BlockId} {ls : List Effect} (h : ofBlocksApart g inv m bs = .ok ls) :
    ls.length = bs.length := by
  induction bs generalizing ls with
  | nil => cases h; rfl
  | cons b bs ih =>
    simp only [ofBlocksApart] at h
    split at h
    · cases h
    · split at h
      · cases h
      · rename_i hr
        cases h
        simp [ih hr]

theorem length_ofFlowGraph {g : FlowGraph} {inv : Inventory} {r : Registry} {strict parallel : Bool}
    {ls : List Effect} (h : ofFlowGraph g inv r strict parallel = .ok ls) :
    ls.length = g.blocks.length := by
  simp only [ofFlowGraph] at h
  split at h
  · exact length_ofBlocksApart h
  · exact length_ofBlocks h

end Effect

end MemFlow

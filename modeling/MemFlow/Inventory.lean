import MemFlow.Error
import MemFlow.Graph.View
import MemFlow.Registry.Basic

/-!
# Definitions and expressions of a graph

Before anything is computed, every statement is checked against the registry:
what it names must be registered, a certain write must be exact and definite,
and every expression it evaluates must be known. The definitions and
expressions of a graph that passes are then listed once each, in the order in
which they first occur.
-/

namespace MemFlow

/-- A statement that writes. -/
structure Definition where
  stmt : StmtId
  /-- The location that is certainly written. -/
  certain : Option DescId
  /-- Everything that may be written. -/
  written : DescSet
deriving DecidableEq

/-- Every definition and every evaluated expression of a graph. -/
structure Inventory where
  defs : List Definition := []
  exprs : List (ExprId × DescSet) := []

namespace Inventory

/-- The definition of a statement, if it writes. -/
def def? (inv : Inventory) (s : StmtId) : Option Definition := inv.defs.find? (·.stmt = s)

/-- The numbers of the statements that write. -/
def defIds (inv : Inventory) : IdSet := .ofList (inv.defs.map (·.stmt.num))

/-- The numbers of the expressions that some statement evaluates. -/
def exprIds (inv : Inventory) : IdSet := .ofList (inv.exprs.map (·.1.num))

/-! ## Checks -/

/-- The first thing wrong with the access of a statement. -/
def accessFault? (r : Registry) (s : StmtId) (acc : Access) : Option AnalysisError :=
  match acc.named.find? (!r.isRegistered ·) with
  | some d => some (.unregistered s d)
  | none =>
    match acc.certain with
    | none => none
    | some d =>
      if ((r.desc? d).elim false (·.isDefinite)) then none else some (.uncertainWrite s d)

/-- The first thing wrong with an expression that a statement evaluates. -/
def exprFault? (g : FlowGraph) (r : Registry) (s : StmtId) (e : ExprId) : Option AnalysisError :=
  match g.uses e with
  | none => some (.noSummary s e)
  | some used => (used.toList.find? (!r.isRegistered ·)).map (.unregistered s)

/-- The first thing wrong with a statement: its access comes before its
expressions. -/
def stmtFault? (g : FlowGraph) (r : Registry) (s : StmtId) : Option AnalysisError :=
  (g.access s).bind (accessFault? r s) <|> (g.exprs s).findSome? (exprFault? g r s)

/-! ## Collection -/

/-- The definition a statement is, if its access includes a write. -/
def definition? (g : FlowGraph) (s : StmtId) : Option Definition :=
  match g.access s with
  | some acc => if acc.writes then some ⟨s, acc.certain, acc.written⟩ else none
  | none => none

/-- What the listed statements define and evaluate. -/
def ofStmts (g : FlowGraph) (stmts : List StmtId) : Inventory where
  defs := stmts.eraseDups.filterMap (definition? g)
  exprs := (stmts.flatMap g.exprs).eraseDups.filterMap fun e => (g.uses e).map (e, ·)

/-- Check every statement of the graph in order and collect what they define and
evaluate. -/
def ofFlowGraph (g : FlowGraph) (r : Registry) : Except AnalysisError Inventory :=
  let stmts := g.blocks.flatMap g.stmts
  match stmts.findSome? (stmtFault? g r) with
  | some e => .error e
  | none => .ok (ofStmts g stmts)

end Inventory

end MemFlow

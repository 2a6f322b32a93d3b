import MemFlow.Analysis.Solution

/-!
# Several scopes

Independent analyses solved together. The results come in the order of the
scopes. With fail-fast the first scope that fails, in that order, fails them
all.
-/

namespace MemFlow

/-- One analysis to run. -/
structure Scope where
  graph : FlowGraph
  registry : Registry
  options : Options := {}

namespace Scope

/-- The analysis of one scope. -/
def analyse (s : Scope) (strategy : Strategy) : Except AnalysisError Solution :=
  MemFlow.analyse s.graph s.registry s.options strategy

/-- The results if all of them are solutions, and otherwise the first error. -/
def allOrFirst : List (Except AnalysisError Solution) →
    Except Failure (List (Except AnalysisError Solution))
  | [] => .ok []
  | .error e :: _ => .error (.analysis e)
  | .ok s :: rest =>
    match allOrFirst rest with
    | .ok results => .ok (.ok s :: results)
    | .error e => .error e

/-- Analyse every scope. -/
def solveAll (scopes : List Scope) (strategy : Strategy) (config : ScopeConfig) :
    Except Failure (List (Except AnalysisError Solution)) :=
  let results := scopes.map (·.analyse strategy)
  if config.failFast then allOrFirst results else .ok results

end Scope

end MemFlow

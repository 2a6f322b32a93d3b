import MemFlow.Ident

/-!
# Errors

What can go wrong, as causes: in the registry, in an analysis, or in setting up
workers. Each has its message and, where the cause names one, the id that it
implicates.
-/

namespace MemFlow

/-- Why the registry refused a request. -/
inductive RegistryError where
  /-- The variable was never declared. -/
  | undeclared (base : VarId)
  /-- The descriptor was never registered. -/
  | unregistered (desc : DescId)
  /-- The extent is empty or ends beyond the last address. -/
  | badExtent (base : VarId) (offset size : Nat)
deriving DecidableEq, Repr

namespace RegistryError

def message : RegistryError → String
  | .undeclared v => s!"unknown base {v.text}"
  | .unregistered d => s!"unknown memory descriptor {d.text}"
  | .badExtent v o n => s!"invalid extent for base {v.text}: offset {o}, size {n}"

/-- The name of what the error is about. -/
def implicated : RegistryError → String
  | .undeclared v => v.text
  | .unregistered d => d.text
  | .badExtent v _ _ => v.text

end RegistryError

/-- Why an analysis stopped. -/
inductive AnalysisError where
  /-- The graph is not well formed at the block. -/
  | malformed (block : BlockId)
  /-- The statement mentions a descriptor that is not registered. -/
  | unregistered (stmt : StmtId) (desc : DescId)
  /-- The certain write of the statement is to something inexact. -/
  | uncertainWrite (stmt : StmtId) (desc : DescId)
  /-- The statement evaluates an expression that the graph does not know. -/
  | noSummary (stmt : StmtId) (expr : ExprId)
  /-- The registry refused a question about the statement. -/
  | registry (stmt : StmtId) (cause : RegistryError)
deriving DecidableEq, Repr

namespace AnalysisError

def message : AnalysisError → String
  | .malformed b => s!"malformed CFG at {b.text}"
  | .unregistered s d => s!"{s.text} references unregistered {d.text}"
  | .uncertainWrite s d =>
    s!"{s.text} must-defines {d.text}, which is not an exact definite write"
  | .noSummary s e => s!"{s.text} evaluates {e.text}, which has no reference summary"
  | .registry s cause => s!"{s.text}: {cause.message}"

/-- The name of what the error is about. -/
def implicated : AnalysisError → String
  | .malformed b => b.text
  | .unregistered _ d => d.text
  | .uncertainWrite _ d => d.text
  | .noSummary _ e => e.text
  | .registry s _ => s.text

end AnalysisError

/-- Any failure of the library. -/
inductive Failure where
  | registry (cause : RegistryError)
  | analysis (cause : AnalysisError)
  /-- The workers could not be started, for a reason given as text. -/
  | workers (reason : String)
deriving DecidableEq, Repr

namespace Failure

def message : Failure → String
  | .registry e => e.message
  | .analysis e => e.message
  | .workers reason => s!"failed to create thread pool: {reason}"

/-- The name of what the failure is about, if it is about anything. -/
def implicated : Failure → Option String
  | .registry e => some e.implicated
  | .analysis e => some e.implicated
  | .workers _ => none

end Failure

end MemFlow

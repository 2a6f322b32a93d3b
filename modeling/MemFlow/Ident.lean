/-!
# Identifiers

One type per kind of thing that is numbered, so that the number of a statement
is never taken for the number of a block. Each has the text that messages use.

Numbers are unbounded here and never wrap around. They are meant to have 32 bits:
what is said of them is said of scopes with fewer than 2^32 things of each kind.
-/

namespace MemFlow

/-- A basic block of a flow graph. -/
structure BlockId where
  num : Nat
deriving DecidableEq, Repr

/-- A statement, numbered across the whole graph. -/
structure StmtId where
  num : Nat
deriving DecidableEq, Repr

/-- An expression, numbered across the whole graph. -/
structure ExprId where
  num : Nat
deriving DecidableEq, Repr

/-- A variable: the storage that descriptors are about. -/
structure VarId where
  num : Nat
deriving DecidableEq, Repr

/-- A registered memory descriptor. -/
structure DescId where
  num : Nat
deriving DecidableEq, Repr

/-- The block's name, `bb3`. -/
def BlockId.text (b : BlockId) : String := s!"bb{b.num}"

/-- The statement's name, `stmt3`. -/
def StmtId.text (s : StmtId) : String := s!"stmt{s.num}"

/-- The expression's name, `expr3`. -/
def ExprId.text (e : ExprId) : String := s!"expr{e.num}"

/-- The variable's name, `var3`. -/
def VarId.text (v : VarId) : String := s!"var{v.num}"

/-- The descriptor's name, `md3`. -/
def DescId.text (d : DescId) : String := s!"md{d.num}"

namespace VarId

/-- The variable that stands for all memory. -/
def allMem : VarId := ⟨0⟩

/-- The variable that stands for every global and imported variable. -/
def globalMem : VarId := ⟨1⟩

/-- The variable that stands for every imported variable. -/
def importMem : VarId := ⟨2⟩

end VarId

namespace DescId

/-- The summary of all memory. -/
def allMem : DescId := ⟨0⟩

/-- The summary of every global and imported variable. -/
def globalMem : DescId := ⟨1⟩

/-- The summary of every imported variable. -/
def importMem : DescId := ⟨2⟩

/-- The number of summaries; the first descriptor of a program variable takes
it as its own number. -/
def firstOrdinary : Nat := 3

/-- Whether the id is one of the three summaries. -/
def isSentinel (d : DescId) : Bool := d.num < firstOrdinary

end DescId

end MemFlow

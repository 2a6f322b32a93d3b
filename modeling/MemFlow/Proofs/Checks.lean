import MemFlow.Graph.Table
import MemFlow.Proofs.Acceptance
import MemFlow.Proofs.Analyses

/-!
# Nothing fails after the checks

The statements of a graph are checked against the registry before anything is
computed. What the checks ask for is said here of the graph and the registry
alone, and so is which of several faults is reported: the first in the order of
the blocks, the statements and the parts of a statement. Computing the effects of
blocks looks descriptors up again, but only those that the checks have seen, so
none of these look-ups can fail, whatever a memo was asked before.
-/

namespace MemFlow

/-! ## What the checks ask for -/

namespace Registry

/-- A write through the descriptor lands on every byte of a known extent. -/
def Definite (r : Registry) (d : DescId) : Prop :=
  ∃ desc, r.desc? d = some desc ∧ desc.kind = .exact ∧ desc.flags.mayOnly = false

/-- Every member of the set is registered. -/
def Knows (r : Registry) (s : DescSet) : Prop := ∀ d ∈ s, r.isRegistered d = true

/-- The least member of the set that is not registered. -/
def LeastUnknown (r : Registry) (s : DescSet) (d : DescId) : Prop :=
  d ∈ s ∧ r.isRegistered d = false ∧ ∀ e ∈ s, r.isRegistered e = false → d.num ≤ e.num

end Registry

namespace Access

/-- The certain write, if there is one, is registered. -/
def CertainKnown (acc : Access) (r : Registry) : Prop :=
  ∀ d, acc.certain = some d → r.isRegistered d = true

/-- Everything the access names is registered. -/
structure Known (acc : Access) (r : Registry) : Prop where
  certain : acc.CertainKnown r
  possible : r.Knows acc.possible
  reads : r.Knows acc.reads

/-- The access passes the checks. -/
structure Sound (acc : Access) (r : Registry) : Prop extends acc.Known r where
  definite : ∀ d, acc.certain = some d → r.Definite d

/-- What is reported of an access: a certain write that is not registered, else
the least such possible write, else the least such read, else a certain write that
is not definite. -/
inductive Fault (acc : Access) (r : Registry) (s : StmtId) : AnalysisError → Prop where
  | certain {d : DescId} (named : acc.certain = some d) (unknown : r.isRegistered d = false) :
      acc.Fault r s (.unregistered s d)
  | possible {d : DescId} (certain : acc.CertainKnown r)
      (least : r.LeastUnknown acc.possible d) : acc.Fault r s (.unregistered s d)
  | reads {d : DescId} (certain : acc.CertainKnown r) (possible : r.Knows acc.possible)
      (least : r.LeastUnknown acc.reads d) : acc.Fault r s (.unregistered s d)
  | uncertain {d : DescId} (known : acc.Known r) (named : acc.certain = some d)
      (indefinite : ¬ r.Definite d) : acc.Fault r s (.uncertainWrite s d)

end Access

namespace FlowGraph

/-- The expression is known, and so is everything it reads. -/
def ExprSound (g : FlowGraph) (r : Registry) (e : ExprId) : Prop :=
  ∃ used, g.uses e = some used ∧ r.Knows used

/-- The statement passes the checks. -/
structure StmtSound (g : FlowGraph) (r : Registry) (s : StmtId) : Prop where
  access : ∀ acc, g.access s = some acc → acc.Sound r
  exprs : ∀ e ∈ g.exprs s, g.ExprSound r e

/-- What is reported of an expression that the statement evaluates. -/
inductive ExprFault (g : FlowGraph) (r : Registry) (s : StmtId) (e : ExprId) :
    AnalysisError → Prop where
  | noSummary (missing : g.uses e = none) : g.ExprFault r s e (.noSummary s e)
  | unknown {used : DescSet} {d : DescId} (summary : g.uses e = some used)
      (least : r.LeastUnknown used d) : g.ExprFault r s e (.unregistered s d)

/-- What is reported of a statement: a fault of its access, else that of the first
expression that has one. -/
inductive StmtFault (g : FlowGraph) (r : Registry) (s : StmtId) : AnalysisError → Prop where
  | access {acc : Access} {err : AnalysisError} (found : g.access s = some acc)
      (fault : acc.Fault r s err) : g.StmtFault r s err
  | expr {before after : List ExprId} {e : ExprId} {err : AnalysisError}
      (access : ∀ acc, g.access s = some acc → acc.Sound r)
      (split : g.exprs s = before ++ e :: after) (sound : ∀ c ∈ before, g.ExprSound r c)
      (fault : g.ExprFault r s e err) : g.StmtFault r s err

/-- What is reported of a graph: the fault of a statement before which, block by
block and statement by statement, everything passes. -/
def FirstFault (g : FlowGraph) (r : Registry) (err : AnalysisError) : Prop :=
  ∃ before b after earlier s later,
    g.blocks = before ++ b :: after ∧ g.stmts b = earlier ++ s :: later ∧
    (∀ q ∈ before, ∀ t ∈ g.stmts q, g.StmtSound r t) ∧
    (∀ t ∈ earlier, g.StmtSound r t) ∧ g.StmtFault r s err

end FlowGraph

/-! ## Looking for the first fault -/

theorem DescSet.pairwise_toList (s : DescSet) : s.toList.Pairwise (·.num < ·.num) := by
  rw [toList, List.pairwise_map]
  exact s.ids.pairwise_toList

/-- Of an ascending list a prefix is taken up to the first element that fails. -/
theorem mem_takeWhile_of_ascending {p : DescId → Bool} {ds : List DescId}
    (ascending : ds.Pairwise (·.num < ·.num)) {d : DescId} :
    d ∈ ds.takeWhile p ↔ d ∈ ds ∧ p d = true ∧ ∀ e ∈ ds, p e = false → d.num < e.num := by
  induction ds with
  | nil => simp
  | cons c ds ih =>
    obtain ⟨least, rest⟩ := List.pairwise_cons.mp ascending
    by_cases holds : p c = true
    · have passes : ¬ p c = false := by simp [holds]
      rw [List.takeWhile_cons_of_pos holds, List.mem_cons, ih rest, List.mem_cons,
        List.forall_mem_cons]
      constructor
      · rintro (rfl | ⟨hd, known, first⟩)
        · exact ⟨Or.inl rfl, holds, fun no => absurd no passes, fun e he _ => least e he⟩
        · exact ⟨Or.inr hd, known, fun no => absurd no passes, first⟩
      · rintro ⟨rfl | hd, known, -, first⟩
        · exact Or.inl rfl
        · exact Or.inr ⟨hd, known, first⟩
    · rw [List.takeWhile_cons_of_neg holds]
      apply iff_of_false List.not_mem_nil
      rintro ⟨hd, -, first⟩
      have before := first c List.mem_cons_self (by simpa using holds)
      rcases List.mem_cons.mp hd with rfl | hd
      · omega
      · have := least d hd
        omega

namespace Registry

variable {r : Registry} {s : DescSet} {d : DescId}

theorem find?_unknown_eq_none : s.toList.find? (!r.isRegistered ·) = none ↔ r.Knows s := by
  simp [List.find?_eq_none, Knows]

theorem find?_unknown_eq_some :
    s.toList.find? (!r.isRegistered ·) = some d ↔ r.LeastUnknown s d := by
  have ascending := s.pairwise_toList
  rw [List.find?_eq_some_iff_append]
  simp only [Bool.not_eq_true', Bool.not_not]
  constructor
  · rintro ⟨unknown, before, after, split, known⟩
    rw [split, List.pairwise_append, List.pairwise_cons] at ascending
    refine ⟨DescSet.mem_toList.mp (by simp [split]), unknown, ?_⟩
    intro e he unknown_e
    rw [← DescSet.mem_toList, split, List.mem_append, List.mem_cons] at he
    rcases he with he | rfl | he
    · simp [known e he] at unknown_e
    · exact Nat.le_refl _
    · exact Nat.le_of_lt (ascending.2.1.1 e he)
  · rintro ⟨hd, unknown, least⟩
    obtain ⟨before, after, split⟩ := List.append_of_mem (DescSet.mem_toList.mpr hd)
    refine ⟨unknown, before, after, split, ?_⟩
    rw [split, List.pairwise_append] at ascending
    intro e he
    have smaller := ascending.2.2 e he d List.mem_cons_self
    by_contra unknown_e
    have := least e (DescSet.mem_toList.mp (by simp [split, he])) (by simpa using unknown_e)
    omega

theorem definite_iff : (r.desc? d).elim false (·.isDefinite) = true ↔ r.Definite d := by
  cases h : r.desc? d <;> simp [Definite, Descriptor.isDefinite, Descriptor.isExact, h]

end Registry

namespace Inventory

variable {g : FlowGraph} {r : Registry} {s : StmtId} {err : AnalysisError}

theorem find?_certain_eq_none {acc : Access} :
    acc.certain.toList.find? (!r.isRegistered ·) = none ↔ acc.CertainKnown r := by
  cases h : acc.certain <;> simp [Access.CertainKnown, h]

theorem find?_certain_eq_some {acc : Access} {d : DescId} :
    acc.certain.toList.find? (!r.isRegistered ·) = some d ↔
      acc.certain = some d ∧ r.isRegistered d = false := by
  cases h : acc.certain with
  | none => simp
  | some c =>
    simp only [Option.toList_some, List.find?_singleton, Option.some.injEq]
    constructor
    · intro hc
      split at hc
      · rename_i unknown
        cases hc
        exact ⟨rfl, by simpa using unknown⟩
      · cases hc
    · rintro ⟨rfl, unknown⟩
      simp [unknown]

theorem find?_named_eq_none {acc : Access} :
    acc.named.find? (!r.isRegistered ·) = none ↔ acc.Known r := by
  simp only [Access.named, List.find?_append, Option.or_eq_none_iff, find?_certain_eq_none,
    Registry.find?_unknown_eq_none]
  constructor
  · rintro ⟨⟨certain, possible⟩, reads⟩
    exact ⟨certain, possible, reads⟩
  · rintro ⟨certain, possible, reads⟩
    exact ⟨⟨certain, possible⟩, reads⟩

theorem accessFault?_eq_none {acc : Access} : accessFault? r s acc = none ↔ acc.Sound r := by
  unfold accessFault?
  cases named : acc.named.find? (!r.isRegistered ·) with
  | some d =>
    refine iff_of_false (by simp) ?_
    intro sound
    rw [find?_named_eq_none.mpr sound.toKnown] at named
    cases named
  | none =>
    have known := find?_named_eq_none.mp named
    cases certain : acc.certain with
    | none => exact iff_of_true rfl ⟨known, by simp [certain]⟩
    | some d =>
      simp only [ite_eq_left_iff, reduceCtorEq, imp_false, not_not, Registry.definite_iff]
      constructor
      · intro definite
        refine ⟨known, ?_⟩
        rintro c hc
        rw [certain] at hc
        cases hc
        exact definite
      · intro sound
        exact sound.definite d certain

theorem find?_named_eq_some {acc : Access} {d : DescId} :
    acc.named.find? (!r.isRegistered ·) = some d ↔
      (acc.certain = some d ∧ r.isRegistered d = false) ∨
      (acc.CertainKnown r ∧ r.LeastUnknown acc.possible d) ∨
      (acc.CertainKnown r ∧ r.Knows acc.possible ∧ r.LeastUnknown acc.reads d) := by
  simp only [Access.named, List.find?_append, Option.or_eq_some_iff, Option.or_eq_none_iff,
    find?_certain_eq_none, find?_certain_eq_some, Registry.find?_unknown_eq_none,
    Registry.find?_unknown_eq_some, or_assoc, and_assoc]

theorem accessFault?_eq_some {acc : Access} :
    accessFault? r s acc = some err ↔ acc.Fault r s err := by
  constructor
  · intro h
    unfold accessFault? at h
    split at h
    · rename_i d named
      cases h
      rcases find?_named_eq_some.mp named with ⟨certain, unknown⟩ | ⟨certain, least⟩ |
        ⟨certain, possible, least⟩
      · exact .certain certain unknown
      · exact .possible certain least
      · exact .reads certain possible least
    · rename_i named
      have known := find?_named_eq_none.mp named
      split at h
      · cases h
      · rename_i d certain
        split at h
        · cases h
        · rename_i indefinite
          cases h
          refine .uncertain known certain ?_
          intro definite
          exact indefinite (Registry.definite_iff.mpr definite)
  · intro fault
    unfold accessFault?
    cases fault with
    | certain named unknown => rw [find?_named_eq_some.mpr (Or.inl ⟨named, unknown⟩)]
    | possible certain least => rw [find?_named_eq_some.mpr (Or.inr (Or.inl ⟨certain, least⟩))]
    | reads certain possible least =>
      rw [find?_named_eq_some.mpr (Or.inr (Or.inr ⟨certain, possible, least⟩))]
    | uncertain known named indefinite =>
      rw [find?_named_eq_none.mpr known, named]
      simp [Registry.definite_iff, indefinite]

theorem exprFault?_eq_none {e : ExprId} : exprFault? g r s e = none ↔ g.ExprSound r e := by
  unfold exprFault?
  cases uses : g.uses e with
  | none => simp [FlowGraph.ExprSound, uses]
  | some used =>
    rw [Option.map_eq_none_iff, Registry.find?_unknown_eq_none]
    simp [FlowGraph.ExprSound, uses]

theorem exprFault?_eq_some {e : ExprId} :
    exprFault? g r s e = some err ↔ g.ExprFault r s e err := by
  unfold exprFault?
  cases uses : g.uses e with
  | none =>
    constructor
    · rintro ⟨⟩
      exact .noSummary uses
    · intro fault
      cases fault with
      | noSummary => rfl
      | unknown summary => simp [uses] at summary
  | some used =>
    simp only [Option.map_eq_some_iff, Registry.find?_unknown_eq_some]
    constructor
    · rintro ⟨d, least, rfl⟩
      exact .unknown uses least
    · intro fault
      cases fault with
      | noSummary missing => simp [uses] at missing
      | unknown summary least =>
        rw [uses] at summary
        cases summary
        exact ⟨_, least, rfl⟩

theorem bind_accessFault?_eq_none :
    (g.access s).bind (accessFault? r s) = none ↔
      ∀ acc, g.access s = some acc → acc.Sound r := by
  rw [Option.bind_eq_none_iff]
  simp only [accessFault?_eq_none]

theorem stmtFault?_eq_none_iff : stmtFault? g r s = none ↔ g.StmtSound r s := by
  simp only [stmtFault?, Option.orElse_eq_orElse, Option.orElse_eq_or, Option.or_eq_none_iff,
    bind_accessFault?_eq_none, List.findSome?_eq_none_iff, exprFault?_eq_none]
  constructor
  · rintro ⟨access, exprs⟩
    exact ⟨access, exprs⟩
  · rintro ⟨access, exprs⟩
    exact ⟨access, exprs⟩

theorem stmtFault?_eq_some : stmtFault? g r s = some err ↔ g.StmtFault r s err := by
  simp only [stmtFault?, Option.orElse_eq_orElse, Option.orElse_eq_or, Option.or_eq_some_iff,
    bind_accessFault?_eq_none, Option.bind_eq_some_iff, accessFault?_eq_some,
    List.findSome?_eq_some_iff, exprFault?_eq_none, exprFault?_eq_some]
  constructor
  · rintro (⟨acc, found, fault⟩ | ⟨access, before, e, after, split, fault, sound⟩)
    · exact .access found fault
    · exact .expr access split sound fault
  · intro fault
    cases fault with
    | access found fault => exact Or.inl ⟨_, found, fault⟩
    | expr access split sound fault => exact Or.inr ⟨access, _, _, _, split, fault, sound⟩

theorem ofFlowGraph_eq_ok_iff :
    (∃ inv, ofFlowGraph g r = .ok inv) ↔ ∀ b ∈ g.blocks, ∀ s ∈ g.stmts b, g.StmtSound r s := by
  have faultless : (g.blocks.flatMap g.stmts).findSome? (stmtFault? g r) = none ↔
      ∀ b ∈ g.blocks, ∀ s ∈ g.stmts b, g.StmtSound r s := by
    simp only [List.findSome?_eq_none_iff, List.mem_flatMap, stmtFault?_eq_none_iff]
    constructor
    · intro h b hb s hs
      exact h s ⟨b, hb, hs⟩
    · rintro h s ⟨b, hb, hs⟩
      exact h b hb s hs
  rw [← faultless]
  simp only [ofFlowGraph]
  cases (g.blocks.flatMap g.stmts).findSome? (stmtFault? g r) <;> simp

theorem findSome?_flatMap {α β γ : Type} (as : List α) (f : α → List β) (p : β → Option γ) :
    (as.flatMap f).findSome? p = as.findSome? fun a => (f a).findSome? p := by
  induction as with
  | nil => rfl
  | cons a as ih =>
    rw [List.flatMap_cons, List.findSome?_append, ih, List.findSome?_cons]
    cases (f a).findSome? p <;> rfl

/-- **The first fault is reported.** -/
theorem ofFlowGraph_eq_error_iff : ofFlowGraph g r = .error err ↔ g.FirstFault r err := by
  have first : (g.blocks.flatMap g.stmts).findSome? (stmtFault? g r) = some err ↔
      g.FirstFault r err := by
    rw [findSome?_flatMap, List.findSome?_eq_some_iff]
    simp only [List.findSome?_eq_some_iff, List.findSome?_eq_none_iff, stmtFault?_eq_none_iff,
      stmtFault?_eq_some]
    constructor
    · rintro ⟨before, b, after, blocks, ⟨earlier, s, later, stmts, fault, sound⟩, passed⟩
      exact ⟨before, b, after, earlier, s, later, blocks, stmts, passed, sound, fault⟩
    · rintro ⟨before, b, after, earlier, s, later, blocks, stmts, passed, sound, fault⟩
      exact ⟨before, b, after, blocks, ⟨earlier, s, later, stmts, fault, sound⟩, passed⟩
  rw [← first]
  simp only [ofFlowGraph]
  cases (g.blocks.flatMap g.stmts).findSome? (stmtFault? g r) <;> simp

end Inventory

/-! ## Look-ups that cannot fail -/

theorem Registry.get_of_registered {r : Registry} {d : DescId} (h : r.isRegistered d = true) :
    ∃ desc, r.get d = .ok desc := by
  have bound : d.num < r.descs.size := by simpa [isRegistered] using h
  exact ⟨_, get_eq_ok.mpr (Array.getElem?_eq_getElem bound)⟩

theorem Registry.closure_of_registered {r : Registry} {d : DescId} (h : r.isRegistered d = true)
    (strict : Bool) : ∃ c, r.closure strict d = .ok c := by
  obtain ⟨desc, found⟩ := get_of_registered h
  exact ⟨_, by rw [closure, closeInto, found, result]⟩

namespace ClosureMemo

variable {m : ClosureMemo} {r : Registry} {strict : Bool}

theorem ask_ok (hm : m.Answers r strict) {d : DescId} (h : r.isRegistered d = true) :
    ∃ m' s, m.ask d = (m', .ok s) := by
  obtain ⟨rfl, rfl, -⟩ := hm
  obtain ⟨c, closed⟩ := Registry.closure_of_registered h m.strict
  unfold ask
  cases m.known.lookup d with
  | some s => exact ⟨m, s, rfl⟩
  | none => exact ⟨_, c, by rw [closed]⟩

theorem askAll_ok (hm : m.Answers r strict) {ds : List DescId}
    (h : ∀ d ∈ ds, r.isRegistered d = true) (acc : DescSet) :
    ∃ m' s, m.askAll ds acc = (m', .ok s) := by
  induction ds generalizing m acc with
  | nil => exact ⟨m, acc, rfl⟩
  | cons d ds ih =>
    obtain ⟨m₁, c, asked⟩ := ask_ok hm (h d List.mem_cons_self)
    obtain ⟨hm₁, -⟩ := ask_spec asked hm
    obtain ⟨m', s, rest⟩ := ih hm₁ (fun e he => h e (List.mem_cons_of_mem d he)) (acc.union c).1
    exact ⟨m', s, by rw [askAll, asked]; exact rest⟩

theorem askSet_ok (hm : m.Answers r strict) {w : DescSet} (h : r.Knows w) :
    ∃ m' s, m.askSet w = (m', .ok s) :=
  askAll_ok hm (fun d hd => h d (DescSet.mem_toList.mp hd)) ∅

end ClosureMemo

/-- Everything the definition names is registered. -/
structure Definition.Known (d : Definition) (r : Registry) : Prop where
  certain : ∀ c, d.certain = some c → r.isRegistered c = true
  written : r.Knows d.written

theorem Inventory.known_of_mem {g : FlowGraph} {r : Registry} {inv : Inventory}
    (h : ofFlowGraph g r = .ok inv) {d : Definition} (hd : d ∈ inv.defs) : d.Known r := by
  obtain ⟨s, ⟨hs, acc, found, -⟩, rfl⟩ := (mem_defs h).mp hd
  obtain ⟨b, hb, hsb⟩ := List.mem_flatMap.mp hs
  have sound := (ofFlowGraph_eq_ok_iff.mp ⟨inv, h⟩ b hb s hsb).access acc found
  constructor
  · intro c hc
    refine sound.certain c ?_
    simpa [FlowGraph.certain?, found] using hc
  · intro c hc
    simp only [FlowGraph.written, found, Option.elim_some, Access.written] at hc
    split at hc
    · rename_i e certain
      rcases DescSet.mem_insert.mp hc with hc | rfl
      · exact sound.possible c hc
      · exact sound.certain c certain
    · exact sound.possible c hc

namespace Effect

variable {g : FlowGraph} {r : Registry} {inv : Inventory} {strict : Bool} {m : ClosureMemo}

theorem mustKills_ok {k v : Definition} (hk : k.Known r) (hv : v.Known r) :
    ∃ hit, mustKills r k v = .ok hit := by
  unfold mustKills
  cases ck : k.certain with
  | none => exact ⟨false, rfl⟩
  | some a =>
    cases cv : v.certain with
    | none => exact ⟨false, rfl⟩
    | some b =>
      obtain ⟨da, ha⟩ := Registry.get_of_registered (hk.certain a ck)
      obtain ⟨db, hb⟩ := Registry.get_of_registered (hv.certain b cv)
      exact ⟨da.overwrites db, by simp only [ha, hb]⟩

theorem mustVictims_ok {k : Definition} (hk : k.Known r) {vs : List Definition}
    (hvs : ∀ v ∈ vs, v.Known r) : ∃ lost, mustVictims r k vs = .ok lost := by
  induction vs with
  | nil => exact ⟨[], rfl⟩
  | cons v vs ih =>
    obtain ⟨hit, killed⟩ := mustKills_ok hk (hvs v List.mem_cons_self)
    obtain ⟨rest, victims⟩ := ih fun u hu => hvs u (List.mem_cons_of_mem v hu)
    exact ⟨if hit then v.stmt.num :: rest else rest, by rw [mustVictims, killed, victims]⟩

theorem ofDefinition_ok (known : ∀ d ∈ inv.defs, d.Known r) {d : Definition} (hd : d.Known r)
    (closure : DescSet) : ∃ effect, ofDefinition g inv r d closure = .ok effect := by
  obtain ⟨lost, victims⟩ := mustVictims_ok hd
    (fun v hv => known v (List.mem_filter.mp hv).1 : ∀ v ∈ inv.defs.filter (·.stmt ≠ d.stmt), _)
  unfold ofDefinition
  simp only [victims]
  exact ⟨_, rfl⟩

theorem ofStmt_ok (known : ∀ d ∈ inv.defs, d.Known r) (hm : m.Answers r strict) (s : StmtId) :
    ∃ m' effect, ofStmt g inv m s = .ok (m', effect) ∧ m'.Answers r strict := by
  unfold ofStmt
  cases found : inv.def? s with
  | none => exact ⟨m, _, rfl, hm⟩
  | some d =>
    have hd := known d (List.mem_of_find?_eq_some found)
    obtain ⟨m', closure, asked⟩ := ClosureMemo.askSet_ok hm hd.written
    obtain ⟨effect, defined⟩ := ofDefinition_ok (g := g) known hd closure
    rw [← hm.registry_eq] at defined
    exact ⟨m', effect, by simp only [asked, defined], (ClosureMemo.askSet_spec asked hm).1⟩

theorem ofStmts_ok (known : ∀ d ∈ inv.defs, d.Known r) (hm : m.Answers r strict)
    (ss : List StmtId) (acc : Effect) :
    ∃ m' effect, ofStmts g inv m acc ss = .ok (m', effect) ∧ m'.Answers r strict := by
  induction ss generalizing m acc with
  | nil => exact ⟨m, acc, rfl, hm⟩
  | cons s ss ih =>
    obtain ⟨m₁, effect, first, hm₁⟩ := ofStmt_ok (g := g) known hm s
    obtain ⟨m', total, rest, hm'⟩ := ih hm₁ (acc.andThen effect)
    exact ⟨m', total, by simp only [ofStmts, first, rest], hm'⟩

theorem ofBlock_ok (known : ∀ d ∈ inv.defs, d.Known r) (hm : m.Answers r strict) (b : BlockId) :
    ∃ m' effect, ofBlock g inv m b = .ok (m', effect) ∧ m'.Answers r strict :=
  ofStmts_ok known hm (g.stmts b) {}

theorem ofBlocks_ok (known : ∀ d ∈ inv.defs, d.Known r) (hm : m.Answers r strict)
    (bs : List BlockId) : ∃ effects, ofBlocks g inv m bs = .ok effects := by
  induction bs generalizing m with
  | nil => exact ⟨[], rfl⟩
  | cons b bs ih =>
    obtain ⟨m₁, effect, first, hm₁⟩ := ofBlock_ok (g := g) known hm b
    obtain ⟨rest, later⟩ := ih hm₁
    exact ⟨effect :: rest, by simp only [ofBlocks, first, later]⟩

theorem ofBlocksApart_ok (known : ∀ d ∈ inv.defs, d.Known r) (hm : m.Answers r strict)
    (bs : List BlockId) : ∃ effects, ofBlocksApart g inv m bs = .ok effects := by
  induction bs with
  | nil => exact ⟨[], rfl⟩
  | cons b bs ih =>
    obtain ⟨m₁, effect, first, -⟩ := ofBlock_ok (g := g) known hm b
    obtain ⟨rest, later⟩ := ih
    exact ⟨effect :: rest, by simp only [ofBlocksApart, first, later]⟩

theorem ofFlowGraph_ok (hinv : Inventory.ofFlowGraph g r = .ok inv) (strict parallel : Bool) :
    ∃ effects, ofFlowGraph g inv r strict parallel = .ok effects := by
  have known : ∀ d ∈ inv.defs, d.Known r := fun d hd => Inventory.known_of_mem hinv hd
  have hm := ClosureMemo.answers_new r strict
  cases parallel with
  | false => exact ofBlocks_ok known hm g.blocks
  | true => exact ofBlocksApart_ok known hm g.blocks

end Effect

namespace BlockEffects

variable {g : FlowGraph} {r : Registry} {inv : Inventory} {options : Options}

theorem compute_ok {d : DenseGraph} (accepted : DenseGraph.ofFlowGraph g = .ok d)
    (hinv : Inventory.ofFlowGraph g r = .ok inv) (options : Options) :
    ∃ k, compute g r options = .ok k := by
  obtain ⟨effects, computed⟩ := Effect.ofFlowGraph_ok hinv options.strict options.parallel
  unfold compute
  split
  · rename_i e rejected
    rw [accepted] at rejected
    cases rejected
  · split
    · rename_i e faulty
      rw [hinv] at faulty
      cases faulty
    · rename_i inv' hinv'
      rw [hinv] at hinv'
      cases hinv'
      split
      · rename_i e failed
        rw [computed] at failed
        cases failed
      · exact ⟨_, rfl⟩

theorem solve_worklist_ok (k : BlockEffects) : ∃ sol, k.solve .worklist = .ok sol := ⟨_, rfl⟩

theorem solve_reversePostorder_fails {k : BlockEffects} :
    (∃ err, k.solve .reversePostorder = .error err) ↔ ¬ ∃ order, k.graph.rpo = .ok order := by
  unfold solve
  cases k.graph.rpo <;> simp

theorem solve_reversePostorder_fails_iff {k : BlockEffects} (h : compute g r options = .ok k) :
    (∃ err, k.solve .reversePostorder = .error err) ↔
      ¬ (g.rpo.Perm g.blocks ∧ g.rpo.head? = some g.entry) := by
  obtain ⟨entry, inv, effects, hg, -, -, -, rfl⟩ := compute_cases h
  obtain ⟨wf, -⟩ := DenseGraph.ofFlowGraph_cases hg
  rw [solve_reversePostorder_fails]
  exact not_congr (FlowGraph.denseOrder_ok_iff wf.nodup)

end BlockEffects

/-- **Nothing fails after the checks.** For every accepted graph, the statements pass
exactly if each of them is sound, and otherwise the first fault in the walk over
them is reported. If they pass, then every block has an effect whatever a memo was
asked before, all of them have under either reading of overlap, together or apart,
the worklist solves, and sweeping fails exactly if the given order is not one of the
blocks that starts at the entry. -/
theorem checks_are_complete {g : FlowGraph} {d : DenseGraph}
    (accepted : DenseGraph.ofFlowGraph g = .ok d) (r : Registry) :
    ((∃ inv, Inventory.ofFlowGraph g r = .ok inv) ↔
      ∀ b ∈ g.blocks, ∀ s ∈ g.stmts b, g.StmtSound r s) ∧
    (∀ err, Inventory.ofFlowGraph g r = .error err ↔ g.FirstFault r err) ∧
    ∀ inv, Inventory.ofFlowGraph g r = .ok inv →
      (∀ strict (m : ClosureMemo), m.Answers r strict → ∀ b ∈ g.blocks,
        ∃ m' effect, Effect.ofBlock g inv m b = .ok (m', effect) ∧ m'.Answers r strict) ∧
      (∀ strict parallel, ∃ effects,
        Effect.ofFlowGraph g inv r strict parallel = .ok effects) ∧
      ∀ options, ∃ k, BlockEffects.compute g r options = .ok k ∧
        (∃ sol, k.solve .worklist = .ok sol) ∧
        ((∃ err, k.solve .reversePostorder = .error err) ↔
          ¬ (g.rpo.Perm g.blocks ∧ g.rpo.head? = some g.entry)) := by
  refine ⟨Inventory.ofFlowGraph_eq_ok_iff, fun err => Inventory.ofFlowGraph_eq_error_iff, ?_⟩
  intro inv hinv
  refine ⟨?_, Effect.ofFlowGraph_ok hinv, ?_⟩
  · intro strict m hm b _
    exact Effect.ofBlock_ok (fun v hv => Inventory.known_of_mem hinv hv) hm b
  · intro options
    obtain ⟨k, computed⟩ := BlockEffects.compute_ok accepted hinv options
    exact ⟨k, computed, k.solve_worklist_ok, BlockEffects.solve_reversePostorder_fails_iff computed⟩

/-- One block of two statements, of which the second makes the given access and
evaluates an expression. The reverse postorder is missing. -/
def crowded (acc : Access) (uses : List (ExprId × DescSet)) : FlowGraph := GraphTable.toFlowGraph {
  entry := ⟨4⟩, blocks := [⟨4⟩], rpo := [], stmts := [(⟨4⟩, [⟨0⟩, ⟨1⟩])]
  access := [(⟨0⟩, { reads := .allMem }), (⟨1⟩, acc)], exprs := [(⟨1⟩, [⟨6⟩])], uses }

/-- With four faults at once it is the least unknown possible write that is reported.
Without any, the analysis fails only for want of an order. -/
theorem crowded_checked :
    let bad := crowded
      { certain := some ⟨1⟩, possible := .ofList [⟨8⟩, ⟨5⟩], reads := .ofList [⟨3⟩] } []
    let good := crowded { possible := .ofList [⟨1⟩] } [(⟨6⟩, .allMem)]
    (∃ d, DenseGraph.ofFlowGraph bad = .ok d) ∧
    Inventory.ofFlowGraph bad .initial = .error (.unregistered ⟨1⟩ ⟨5⟩) ∧
    bad.FirstFault .initial (.unregistered ⟨1⟩ ⟨5⟩) ∧
    ∃ k, BlockEffects.compute good .initial { strict := true, parallel := true } = .ok k ∧
      (∃ sol, k.solve .worklist = .ok sol) ∧ ∃ err, k.solve .reversePostorder = .error err := by
  intro bad good
  have accepted (acc : Access) (uses : List (ExprId × DescSet)) :
      ∃ d, DenseGraph.ofFlowGraph (crowded acc uses) = .ok d :=
    DenseGraph.accepted_iff.mpr (FlowGraph.malformedAt?_eq_none_iff.mp
      (show (crowded {} []).malformedAt? = none by decide))
  have refused : Inventory.ofFlowGraph bad .initial = .error (.unregistered ⟨1⟩ ⟨5⟩) := by
    rfl
  obtain ⟨d, hd⟩ := accepted _ _
  obtain ⟨d', hd'⟩ := accepted _ _
  obtain ⟨-, first, -⟩ := checks_are_complete (g := bad) hd .initial
  obtain ⟨-, -, passed⟩ := checks_are_complete (g := good) hd' .initial
  obtain ⟨-, -, total⟩ := passed _ rfl
  obtain ⟨k, computed, solved, fails⟩ := total { strict := true, parallel := true }
  exact ⟨⟨d, hd⟩, refused, (first _).mp refused, k, computed, solved, fails.mpr (by decide)⟩

end MemFlow

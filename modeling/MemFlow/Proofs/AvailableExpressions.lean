import MemFlow.Graph.Table
import MemFlow.Proofs.Analyses

/-!
# Which expressions are available at a block

A statement evaluates its expressions before it writes. An expression is
available at a block if every path from the entry evaluates it somewhere, and
from that statement on, its own write included, nothing is written that the
expression may read. The solution holds exactly these expressions.
-/

namespace MemFlow

namespace FlowGraph

/-- Some statement of the graph evaluates the expression. -/
def Computes (g : FlowGraph) (e : ExprId) : Prop := ∃ s ∈ g.allStmts, e ∈ g.exprs s

/-- The statement may write a location that the expression reads. -/
def Invalidates (g : FlowGraph) (r : Registry) (strict : Bool) (s : StmtId) (e : ExprId) : Prop :=
  ∃ used, g.uses e = some used ∧ g.Touches r strict s used

/-- One of the statements evaluates the expression, and neither that statement
nor a later one invalidates it. -/
def Fresh (g : FlowGraph) (r : Registry) (strict : Bool) (e : ExprId) (ss : List StmtId) : Prop :=
  ∃ pre s post, ss = pre ++ s :: post ∧ e ∈ g.exprs s ∧
    ∀ t ∈ s :: post, ¬ g.Invalidates r strict t e

/-- The expression is fresh at the end of every path from the entry to where `b`
is entered. -/
def FreshIn (g : FlowGraph) (r : Registry) (strict : Bool) (e : ExprId) (b : BlockId) : Prop :=
  ∀ qs, g.IsRun (qs ++ [b]) → g.Fresh r strict e (g.along qs)

/-- The expression is fresh at the end of every path from the entry through `b`. -/
def FreshOut (g : FlowGraph) (r : Registry) (strict : Bool) (e : ExprId) (b : BlockId) : Prop :=
  ∀ qs, g.IsRun (qs ++ [b]) → g.Fresh r strict e (g.along (qs ++ [b]))

end FlowGraph

variable {g : FlowGraph} {r : Registry} {strict : Bool}

/-! ## The inventory -/

namespace Inventory

variable {inv : Inventory} {s : StmtId} {e : ExprId}

theorem stmtFault?_eq_none (h : ofFlowGraph g r = .ok inv) (hs : s ∈ g.allStmts) :
    stmtFault? g r s = none := by
  simp only [ofFlowGraph] at h
  split at h
  · cases h
  · rename_i faultless
    exact List.findSome?_eq_none_iff.mp faultless s hs

theorem uses_of_computes (h : ofFlowGraph g r = .ok inv) (hc : g.Computes e) :
    ∃ used, g.uses e = some used := by
  obtain ⟨s, hs, he⟩ := hc
  have faultless := stmtFault?_eq_none h hs
  simp only [stmtFault?, Option.orElse_eq_orElse, Option.orElse_eq_or,
    Option.or_eq_none_iff] at faultless
  have known : exprFault? g r s e = none := List.findSome?_eq_none_iff.mp faultless.2 e he
  cases hu : g.uses e with
  | none => simp [exprFault?, hu] at known
  | some used => exact ⟨used, rfl⟩

theorem mem_exprs (h : ofFlowGraph g r = .ok inv) {p : ExprId × DescSet} :
    p ∈ inv.exprs ↔ g.Computes p.1 ∧ g.uses p.1 = some p.2 := by
  rw [eq_of_ofFlowGraph h]
  simp only [ofStmts, List.mem_filterMap, List.mem_eraseDups, List.mem_flatMap,
    Option.map_eq_some_iff]
  constructor
  · rintro ⟨e, hc, used, hu, rfl⟩
    exact ⟨hc, hu⟩
  · rintro ⟨hc, hu⟩
    exact ⟨p.1, hc, p.2, hu, rfl⟩

theorem mem_exprIds (h : ofFlowGraph g r = .ok inv) (hc : g.Computes e) : e.num ∈ inv.exprIds := by
  obtain ⟨used, hu⟩ := uses_of_computes h hc
  exact IdSet.mem_ofList.mpr (List.mem_map.mpr ⟨(e, used), (mem_exprs h).mpr ⟨hc, hu⟩, rfl⟩)

end Inventory

/-! ## Effects on expressions -/

/-- Expression `v` is evaluated at the statement and not invalidated by it. -/
def Evaluated (g : FlowGraph) (r : Registry) (strict : Bool) (v : Nat) (s : StmtId) : Prop :=
  ⟨v⟩ ∈ g.exprs s ∧ ¬ g.Invalidates r strict s ⟨v⟩

/-- An expression of the graph is spoiled by any statement that invalidates it. -/
def Spoiled (g : FlowGraph) (r : Registry) (strict : Bool) (v : Nat) (s : StmtId) : Prop :=
  g.Computes ⟨v⟩ ∧ g.Invalidates r strict s ⟨v⟩

theorem FlowGraph.Invalidates.writes {s : StmtId} {e : ExprId} (h : g.Invalidates r strict s e) :
    g.Writes s := by
  obtain ⟨used, -, touches⟩ := h
  exact touches.writes

namespace Effect

variable {inv : Inventory} {m m' : ClosureMemo} {s : StmtId} {effect : Effect}

theorem mem_exprNums {es : List ExprId} {v : Nat} :
    v ∈ IdSet.ofList (es.map (·.num)) ↔ ⟨v⟩ ∈ es := by
  rw [IdSet.mem_ofList, List.mem_map]
  constructor
  · rintro ⟨e, he, rfl⟩
    exact he
  · intro he
    exact ⟨⟨v⟩, he, rfl⟩

theorem ofDefinition_exprs {d : Definition} {closure : DescSet}
    (h : ofDefinition g inv r d closure = .ok effect) (v : Nat) :
    (v ∈ effect.genExpr ↔ ⟨v⟩ ∈ g.exprs d.stmt ∧ v ∉ effect.killedExpr) ∧
    (v ∈ effect.killedExpr ↔ ∃ p ∈ inv.exprs, p.1.num = v ∧ closure.meets p.2 = true) := by
  simp only [ofDefinition] at h
  split at h
  · cases h
  · cases h
    refine ⟨by rw [IdSet.mem_sdiff, mem_exprNums], ?_⟩
    simp only [IdSet.mem_ofList, exprVictims, List.mem_map, List.mem_filter, and_assoc]
    exact exists_congr fun p => and_congr_right fun _ => and_comm

/-- **What one statement of the graph does to expressions.** -/
theorem ofStmt_exprs (hinv : Inventory.ofFlowGraph g r = .ok inv) (wf : r.WellFormed)
    (hm : m.Answers r strict) (hs : s ∈ g.allStmts) (h : ofStmt g inv m s = .ok (m', effect))
    (v : Nat) :
    (v ∈ effect.genExpr ↔ Evaluated g r strict v s) ∧
    (v ∈ effect.killedExpr ↔ Spoiled g r strict v s) := by
  by_cases hw : g.Writes s
  · obtain ⟨closure, hask, hdef⟩ := ofStmt_writing hinv hs hw h
    obtain ⟨-, members⟩ := ClosureMemo.askSet_spec hask hm
    obtain ⟨gen, kill⟩ := ofDefinition_exprs hdef v
    have meets : ∀ used, closure.meets used = true ↔ g.Touches r strict s used := by
      intro used
      rw [DescSet.meets_iff, FlowGraph.touches_iff_closure]
      simp only [members wf]
    have spoiled : v ∈ effect.killedExpr ↔ Spoiled g r strict v s := by
      rw [kill]
      constructor
      · rintro ⟨p, hp, rfl, hits⟩
        obtain ⟨hc, hu⟩ := (Inventory.mem_exprs hinv).mp hp
        exact ⟨hc, p.2, hu, (meets p.2).mp hits⟩
      · rintro ⟨hc, used, hu, touches⟩
        exact ⟨(⟨v⟩, used), (Inventory.mem_exprs hinv).mpr ⟨hc, hu⟩, rfl, (meets used).mpr touches⟩
    refine ⟨?_, spoiled⟩
    rw [gen, spoiled]
    -- What this statement evaluates is an expression of the graph.
    refine and_congr_right fun he => not_congr ?_
    exact and_iff_right ⟨s, hs, he⟩
  · obtain ⟨-, rfl⟩ := ofStmt_idle hinv hs hw h
    constructor
    · rw [mem_exprNums]
      exact (and_iff_left fun hi => hw hi.writes).symm
    · exact iff_of_false (IdSet.not_mem_empty v) fun hsp => hw hsp.2.writes

namespace Channel

/-- Expressions that are fresh, and those invalidated. -/
def expressions : Channel :=
  ⟨(·.genExpr), (·.killedExpr), rfl, rfl, fun _ _ => rfl, fun _ _ => rfl⟩

theorem expressions_tells (hinv : Inventory.ofFlowGraph g r = .ok inv) (wf : r.WellFormed)
    (strict : Bool) :
    expressions.Tells g inv r strict (Evaluated g r strict) (Spoiled g r strict) := by
  intro s hs m m' effect hm h
  obtain ⟨hm', -⟩ := ofStmt_spec hinv hm hs h
  exact ⟨hm', means_singleton (ofStmt_exprs hinv wf hm hs h)⟩

end Channel

/-- All that the effect holds is what the statements do. -/
structure Describes (effect : Effect) (g : FlowGraph) (r : Registry) (strict : Bool)
    (ss : List StmtId) : Prop where
  reaching : Channel.reaching.Means (Begins g.Writes) (Ends g (g.MustKills r)) effect ss
  available :
    Channel.available.Means (Begins g.IsCertain) (Ends g (g.MayKills r strict)) effect ss
  expressions :
    Channel.expressions.Means (Evaluated g r strict) (Spoiled g r strict) effect ss

theorem describes_get (hinv : Inventory.ofFlowGraph g r = .ok inv) (wf : r.WellFormed)
    {parallel : Bool} {effects : Vector Effect g.blocks.length}
    (h : ofFlowGraph g inv r strict parallel = .ok effects.toList) (i : Fin g.blocks.length) :
    (effects.get i).Describes g r strict (g.stmts (g.blocks.get i)) := by
  have reaching := Channel.means_ofFlowGraph (Channel.reaching_tells hinv strict) h
  have available := Channel.means_ofFlowGraph (Channel.available_tells hinv wf strict) h
  have expressions := Channel.means_ofFlowGraph (Channel.expressions_tells hinv wf strict) h
  exact ⟨Channel.means_get reaching i, Channel.means_get available i,
    Channel.means_get expressions i⟩

end Effect

theorem BlockEffects.effect_describes {options : Options} {k : BlockEffects}
    (h : compute g r options = .ok k) (wf : r.WellFormed) {b : BlockId} (hb : b ∈ g.blocks) :
    ∃ effect, k.effect? b = some effect ∧
      effect.Describes g r options.strict (g.stmts b) := by
  obtain ⟨entry, inv, effects, hg, -, hinv, heff, rfl⟩ := compute_cases h
  obtain ⟨graph_wf, -⟩ := DenseGraph.ofFlowGraph_cases hg
  obtain ⟨i, rfl⟩ := List.get_of_mem hb
  refine ⟨effects.get i, ?_, Effect.describes_get hinv wf heff i⟩
  exact congrArg (Option.map _) (graph_wf.position?_dense entry i)

/-! ## Every path -/

variable {options : Options} {strategy : Strategy} {sol : Solution} {b : BlockId} {e : ExprId}

theorem lasts_evaluated_iff {ss : List StmtId} (hss : ∀ s ∈ ss, s ∈ g.allStmts) :
    Lasts (Evaluated g r strict e.num) (Spoiled g r strict e.num) ss ↔ g.Fresh r strict e ss := by
  constructor
  · rintro ⟨pre, s, post, rfl, ⟨he, own⟩, later⟩
    refine ⟨pre, s, post, rfl, he, ?_⟩
    intro t ht invalid
    rcases List.mem_cons.mp ht with rfl | ht
    · exact own invalid
    · exact later t ht ⟨⟨s, hss s (by simp), he⟩, invalid⟩
  · rintro ⟨pre, s, post, rfl, he, kept⟩
    refine ⟨pre, s, post, rfl, ⟨he, kept s List.mem_cons_self⟩, ?_⟩
    intro t ht spoiled
    exact kept t (List.mem_cons_of_mem s ht) spoiled.2

theorem staysIn_evaluated_iff :
    e.num ∈ Tracks.staysIn g (Evaluated g r strict) (Spoiled g r strict) b ↔
      g.FreshIn r strict e b := by
  refine forall_congr' fun qs => imp_congr_right fun hr => lasts_evaluated_iff ?_
  intro s hs
  exact hr.1.along_mem (by simp [hs])

theorem staysOut_evaluated_iff :
    e.num ∈ Tracks.staysOut g (Evaluated g r strict) (Spoiled g r strict) b ↔
      g.FreshOut r strict e b := by
  refine forall_congr' fun qs => imp_congr_right fun hr => lasts_evaluated_iff ?_
  intro s hs
  exact hr.1.along_mem hs

/-- Available expressions are what stays along every path. -/
theorem availExpr_stays (h : analyse g r options strategy = .ok sol) (hr : r.WellFormed)
    (hb : b ∈ g.blocks) :
    g.WellFormed ∧ ∃ ins outs,
      sol.in? .availExpr b = some ins ∧ sol.out? .availExpr b = some outs ∧
      ∀ v, (v ∈ ins ↔
          v ∈ Tracks.staysIn g (Evaluated g r options.strict) (Spoiled g r options.strict) b) ∧
        (v ∈ outs ↔
          v ∈ Tracks.staysOut g (Evaluated g r options.strict) (Spoiled g r options.strict) b) := by
  have feeds : Effect.Channel.expressions.Feeds .inter .availExpr :=
    ⟨fun _ => rfl, fun _ => rfl, fun _ => rfl⟩
  refine stays_of_tells h feeds
    (fun inv hinv => Effect.Channel.expressions_tells hinv hr options.strict) ?_ hb
  intro k hinv s hs v evaluated
  exact Inventory.mem_exprIds hinv ⟨s, hs, evaluated.1⟩

/-- **Available expressions are exact.** Under every strategy and limit, what is
available at a block are the expressions that every path from the entry evaluates
and then leaves alone, the write of the evaluating statement included. -/
theorem available_expressions_exact (edits : List RegistryEdit)
    (h : analyse g (Registry.initial.run edits) options strategy = .ok sol) (hb : b ∈ g.blocks) :
    ∃ ins outs, sol.in? .availExpr b = some ins ∧ sol.out? .availExpr b = some outs ∧
      ∀ e : ExprId,
        (e.num ∈ ins ↔ g.FreshIn (Registry.initial.run edits) options.strict e b) ∧
        (e.num ∈ outs ↔ g.FreshOut (Registry.initial.run edits) options.strict e b) := by
  obtain ⟨-, ins, outs, hin, hout, members⟩ := availExpr_stays h (Registry.wellFormed_run edits) hb
  refine ⟨ins, outs, hin, hout, ?_⟩
  intro e
  obtain ⟨mem_ins, mem_outs⟩ := members e.num
  exact ⟨mem_ins.trans staysIn_evaluated_iff, mem_outs.trans staysOut_evaluated_iff⟩

/-- A variable is written in a loop, and read again there after the write. One
expression reads all globals, and one reads nothing. -/
def reuse : FlowGraph := GraphTable.toFlowGraph {
  entry := ⟨0⟩, blocks := [⟨0⟩, ⟨1⟩, ⟨2⟩], rpo := [⟨0⟩, ⟨1⟩, ⟨2⟩]
  preds := [(⟨1⟩, [⟨0⟩, ⟨1⟩]), (⟨2⟩, [⟨1⟩])]
  succs := [(⟨0⟩, [⟨1⟩]), (⟨1⟩, [⟨1⟩, ⟨2⟩])]
  stmts := [(⟨0⟩, [⟨0⟩]), (⟨1⟩, [⟨1⟩, ⟨2⟩]), (⟨2⟩, [⟨3⟩])]
  access := [(⟨1⟩, { certain := some ⟨3⟩ }), (⟨3⟩, { possible := .ofList [⟨4⟩] })]
  exprs := [(⟨0⟩, [⟨0⟩, ⟨1⟩, ⟨2⟩]), (⟨1⟩, [⟨0⟩]), (⟨2⟩, [⟨0⟩]), (⟨3⟩, [⟨0⟩, ⟨1⟩])]
  uses := [(⟨0⟩, .ofList [⟨3⟩]), (⟨1⟩, .ofList [.globalMem]), (⟨2⟩, ∅)] }

def reuseEdits : List RegistryEdit :=
  [.declare "x" .localVar, .register { base := ⟨3⟩, kind := .exact, size := 8 },
    .register { base := ⟨3⟩, kind := .range, offset := 4, size := 8 }]

def reuseRegistry : Registry := Registry.initial.run reuseEdits

theorem reuse_solved : ∃ sol,
    analyse reuse reuseRegistry { strict := true } .reversePostorder = .ok sol ∧
    sol.in? .availReach ⟨2⟩ = some (.ofList [1]) ∧
    sol.in? .availExpr ⟨2⟩ = some (.ofList [0, 2]) ∧
    sol.out? .availExpr ⟨2⟩ = some (.ofList [2]) := by
  have answers : (analyse reuse reuseRegistry { strict := true } .reversePostorder).toOption.map
      (fun sol => (sol.in? .availReach ⟨2⟩, sol.in? .availExpr ⟨2⟩, sol.out? .availExpr ⟨2⟩)) =
      some (some (.ofList [1]), some (.ofList [0, 2]), some (.ofList [2])) := by
    decide +kernel
  obtain ⟨sol, solved, answers⟩ := exists_solution answers
  exact ⟨sol, solved, by simpa only [Prod.mk.injEq] using answers⟩

/-- What the loop reads after its write is fresh behind it. Under the strict
reading a write to a local variable invalidates what reads the globals, also where
the writing statement itself evaluated it. -/
theorem reuse_fresh :
    (∃ sol, analyse reuse reuseRegistry { strict := true } .reversePostorder = .ok sol) ∧
    ⟨2⟩ ∈ reuse.blocks ∧ reuse.FreshIn reuseRegistry true ⟨0⟩ ⟨2⟩ ∧
    ¬ reuse.FreshIn reuseRegistry true ⟨1⟩ ⟨2⟩ ∧ ¬ reuse.FreshOut reuseRegistry true ⟨1⟩ ⟨2⟩ ∧
    reuse.FreshOut reuseRegistry true ⟨2⟩ ⟨2⟩ := by
  obtain ⟨sol, solved, -, hin, hout⟩ := reuse_solved
  have hb : ⟨2⟩ ∈ reuse.blocks := by decide
  obtain ⟨ins, outs, hin', hout', members⟩ := available_expressions_exact reuseEdits solved hb
  obtain rfl := Option.some.inj (hin.symm.trans hin')
  obtain rfl := Option.some.inj (hout.symm.trans hout')
  refine ⟨⟨sol, solved⟩, hb, (members ⟨0⟩).1.mp (by decide), ?_, ?_, (members ⟨2⟩).2.mp (by decide)⟩
  · intro fresh
    have : 1 ∈ IdSet.ofList [0, 2] := (members ⟨1⟩).1.mpr fresh
    exact absurd this (by decide)
  · intro fresh
    have : 1 ∈ IdSet.ofList [2] := (members ⟨1⟩).2.mpr fresh
    exact absurd this (by decide)

end MemFlow

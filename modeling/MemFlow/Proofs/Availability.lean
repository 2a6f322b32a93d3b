import MemFlow.Proofs.AvailableExpressions
import MemFlow.Proofs.Executions
import MemFlow.Proofs.PathExactness

/-!
# What is available is still there

The two must-analyses against executions. However a block is reached, a
definition that is available there is the last writer of every byte of its
certain write, and an expression that is available there was evaluated, with no
byte of what it reads written since.
-/

namespace MemFlow

/-- One thing that an execution does. -/
inductive Action where
  | evaluate (e : ExprId)
  | write (s : StmtId) (bytes : Set Byte)

namespace FlowGraph

variable {g : FlowGraph} {r : Registry} {l : Layout r} {strict : Bool} {qs : List BlockId}
  {trace : List (StmtId × Set Byte)}

/-- What an execution does in turn: each statement evaluates its expressions and
then writes. -/
def actions (g : FlowGraph) (trace : List (StmtId × Set Byte)) : List Action :=
  trace.flatMap fun p => (g.exprs p.1).map .evaluate ++ [.write p.1 p.2]

/-- The expression was evaluated, and since then no byte of what it reads has been
written. -/
def Unspoiled (g : FlowGraph) (l : Layout r) (trace : List (StmtId × Set Byte)) (e : ExprId) :
    Prop :=
  ∃ used before after, g.uses e = some used ∧ g.actions trace = before ++ .evaluate e :: after ∧
    ∀ s w, .write s w ∈ after → ∀ x ∈ w, ∀ a ∈ used, x ∉ l.bytes a

theorem actions_append (t u : List (StmtId × Set Byte)) :
    g.actions (t ++ u) = g.actions t ++ g.actions u := List.flatMap_append

theorem actions_cons (p : StmtId × Set Byte) (t : List (StmtId × Set Byte)) :
    g.actions (p :: t) = (g.exprs p.1).map .evaluate ++ .write p.1 p.2 :: g.actions t := by
  simp [actions]

theorem mem_of_write_mem {s : StmtId} {w : Set Byte} (h : .write s w ∈ g.actions trace) :
    (s, w) ∈ trace := by
  obtain ⟨p, hp, hw⟩ := List.mem_flatMap.mp h
  obtain rfl : p = (s, w) := by simpa [Prod.ext_iff, eq_comm] using hw
  exact hp

/-! ## Definitions -/

/-- A statement that may not overwrite a definition writes none of its bytes. -/
theorem Performs.spares (wf : r.WellFormed) {s d : StmtId} {w : Set Byte} (h : g.Performs l s w)
    (hk : ¬ g.MayKills r strict s d) {x : Byte} (hx : x ∈ g.certainBytes l d) : x ∉ w := by
  intro hxw
  obtain ⟨a, ha, hxa⟩ := hx
  exact hk (h.touches wf hxw (mem_written_of_certain ha) hxa strict)

theorem Executes.lastWriter_of_survives (wf : r.WellFormed) (h : g.Executes l qs trace)
    {d : StmtId} (hd : Survives (g.MayKills r strict) d (g.along qs)) {x : Byte}
    (hx : x ∈ g.certainBytes l d) : LastWriter trace x d := by
  obtain ⟨pre, post, hqs, kept⟩ := hd
  obtain ⟨before, w, after, rfl, hafter, performs⟩ := h.split hqs
  have written : ∃ p ∈ (d, w) :: after, x ∈ p.2 :=
    ⟨(d, w), List.mem_cons_self, (performs _ List.mem_cons_self).1 hx⟩
  -- Somebody wrote the byte last, and after `d` only `d` itself can have.
  obtain ⟨s, last⟩ := LastWriter.of_written written
  have same : s = d := by
    by_contra hne
    obtain ⟨u, hmem, hu⟩ := last.wrote
    have later : (s, u) ∈ after := by simpa [hne] using hmem
    have hs : s ∈ post := by
      rw [← hafter]
      exact List.mem_map.mpr ⟨(s, u), later, rfl⟩
    exact (performs _ hmem).spares wf (kept s hs hne) hx hu
  exact same ▸ last.prepend before

/-! ## Expressions -/

theorem Executes.unspoiled_of_fresh (wf : r.WellFormed) (h : g.Executes l qs trace) {e : ExprId}
    {used : DescSet} (hu : g.uses e = some used) (fresh : g.Fresh r strict e (g.along qs)) :
    g.Unspoiled l trace e := by
  obtain ⟨pre, s, post, hqs, he, kept⟩ := fresh
  obtain ⟨before, w, after, rfl, hafter, performs⟩ := h.split hqs
  obtain ⟨es, fs, hexprs⟩ := List.append_of_mem he
  refine ⟨used, g.actions before ++ es.map .evaluate,
    fs.map .evaluate ++ .write s w :: g.actions after, hu, ?_, ?_⟩
  · rw [actions_append, actions_cons, hexprs]
    simp
  · intro t u hw x hx a ha hxa
    -- The writes after the evaluation are those of its own statement and of later ones.
    have hmem : (t, u) ∈ (s, w) :: after := by
      simp only [List.mem_append, List.mem_map, reduceCtorEq, and_false, exists_false, false_or,
        List.mem_cons, Action.write.injEq] at hw
      rcases hw with ⟨rfl, rfl⟩ | hw
      · exact List.mem_cons_self
      · exact List.mem_cons_of_mem _ (mem_of_write_mem hw)
    have ht : t ∈ ((s, w) :: after).map (·.1) := List.mem_map.mpr ⟨(t, u), hmem, rfl⟩
    rw [List.map_cons, hafter] at ht
    exact kept t ht ⟨used, hu, (performs _ hmem).touches wf hx ha hxa strict⟩

end FlowGraph

/-! ## Both analyses -/

variable {g : FlowGraph} {b : BlockId}

/-- **What the must-analyses promise holds in memory.** Under every strategy, limit
and reading of overlap, and on every execution along every path from the entry to a
block: a definition available there was executed and wrote every byte of its certain
write last, and an expression available there was evaluated with nothing that it
reads written since. -/
theorem available_in_memory (edits : List RegistryEdit) {options : Options}
    {strategy : Strategy} {sol : Solution}
    (h : analyse g (Registry.initial.run edits) options strategy = .ok sol) (hb : b ∈ g.blocks)
    (l : Layout (Registry.initial.run edits)) :
    ∃ defs exprs, sol.in? .availReach b = some defs ∧ sol.in? .availExpr b = some exprs ∧
      ∀ qs trace, g.IsRun (qs ++ [b]) → g.Executes l qs trace →
        (∀ d : StmtId, d.num ∈ defs → d ∈ trace.map (·.1) ∧ g.IsCertain d ∧
          ∀ x ∈ g.certainBytes l d, LastWriter trace x d) ∧
        (∀ e : ExprId, e.num ∈ exprs → g.Unspoiled l trace e) := by
  have hr := Registry.wellFormed_run edits
  obtain ⟨-, defs, _, hdefs, -, memDefs⟩ := availReach_stays h hr hb
  obtain ⟨-, exprs, _, hexprs, -, memExprs⟩ := availExpr_stays h hr hb
  obtain ⟨-, inv, -, -, -, hinv, -⟩ := analyse_cases h
  refine ⟨defs, exprs, hdefs, hexprs, ?_⟩
  intro qs trace run executes
  have along : ∀ s ∈ g.along qs, s ∈ g.allStmts := fun s hs => run.1.along_mem (by simp [hs])
  constructor
  · intro d hd
    have lasts := (memDefs d.num).1.mp hd qs run
    obtain ⟨certain, survives⟩ := (lasts_begins_iff FlowGraph.IsCertain.writes along).mp lasts
    refine ⟨?_, certain, fun x hx => executes.lastWriter_of_survives hr survives hx⟩
    obtain ⟨pre, post, hqs, -⟩ := survives
    rw [executes.1, hqs]
    simp
  · intro e he
    have fresh := staysIn_evaluated_iff.mp ((memExprs e.num).1.mp he) qs run
    obtain ⟨pre, s, post, hqs, evaluates, -⟩ := id fresh
    have computes : g.Computes e := ⟨s, along s (by simp [hqs]), evaluates⟩
    obtain ⟨used, hu⟩ := Inventory.uses_of_computes hinv computes
    exact executes.unspoiled_of_fresh hr hu fresh

/-- Behind the loop the variable holds what the loop wrote, and what was read from
it after the write is still so. -/
theorem reuse_in_memory :
    (∃ sol, analyse reuse reuseRegistry { strict := true } .reversePostorder = .ok sol) ∧
    ⟨2⟩ ∈ reuse.blocks ∧
    (∃ qs trace, reuse.IsRun (qs ++ [⟨2⟩]) ∧ reuse.Executes reuseRegistry.layout qs trace) ∧
    ∀ qs trace, reuse.IsRun (qs ++ [⟨2⟩]) → reuse.Executes reuseRegistry.layout qs trace →
      (∀ x ∈ reuse.certainBytes reuseRegistry.layout ⟨1⟩, LastWriter trace x ⟨1⟩) ∧
      reuse.Unspoiled reuseRegistry.layout trace ⟨0⟩ := by
  obtain ⟨sol, solved, hdefs, hexprs, -⟩ := reuse_solved
  have hb : ⟨2⟩ ∈ reuse.blocks := by decide
  obtain ⟨defs, exprs, hdefs', hexprs', sound⟩ :=
    available_in_memory reuseEdits solved hb reuseRegistry.layout
  obtain rfl := Option.some.inj (hdefs.symm.trans hdefs')
  obtain rfl := Option.some.inj (hexprs.symm.trans hexprs')
  refine ⟨⟨sol, solved⟩, hb, ?_, ?_⟩
  · have run : reuse.IsRun ([⟨0⟩, ⟨1⟩] ++ [⟨2⟩]) := ⟨⟨by decide, by decide⟩, rfl⟩
    obtain ⟨trace, executes⟩ := FlowGraph.exists_executes reuseRegistry.layout [⟨0⟩, ⟨1⟩]
    exact ⟨[⟨0⟩, ⟨1⟩], trace, run, executes⟩
  · intro qs trace run executes
    obtain ⟨inDefs, inExprs⟩ := sound qs trace run executes
    exact ⟨(inDefs ⟨1⟩ (by decide)).2.2, inExprs ⟨0⟩ (by decide)⟩

end MemFlow

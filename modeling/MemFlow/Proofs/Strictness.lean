import MemFlow.Proofs.AvailableExpressions
import MemFlow.Proofs.Checks
import MemFlow.Proofs.LiveBlocks

/-!
# What the strict reading costs

Under the strict reading every write may also touch global and imported storage. It can
then kill more of what is available, and nothing else changes. In a block a larger kill
can be made up for by a later statement, and in a loop one set can hold itself up, so the
two runs are not compared step by step: both are known from paths, and on one path what
lasts though more is killed also lasts where less is.
-/

namespace MemFlow

variable {g : FlowGraph} {r : Registry} {b : BlockId}

/-! ## Kills -/

theorem FlowGraph.Touches.strict {s : StmtId} {places : DescSet}
    (h : g.Touches r false s places) : g.Touches r true s places := by
  obtain overlap | ⟨impossible, -⟩ := h
  · exact Or.inl overlap
  · cases impossible

theorem Ends.strict {v : Nat} {s : StmtId} (h : Ends g (g.MayKills r false) v s) :
    Ends g (g.MayKills r true) v s :=
  ⟨h.1, h.2.1, FlowGraph.Touches.strict h.2.2⟩

theorem FlowGraph.Invalidates.strict {s : StmtId} {e : ExprId} (h : g.Invalidates r false s e) :
    g.Invalidates r true s e := by
  obtain ⟨used, hu, touches⟩ := h
  exact ⟨used, hu, touches.strict⟩

theorem Spoiled.strict {v : Nat} {s : StmtId} (h : Spoiled g r false v s) :
    Spoiled g r true v s := ⟨h.1, h.2.strict⟩

theorem Evaluated.plain {v : Nat} {s : StmtId} (h : Evaluated g r true v s) :
    Evaluated g r false v s := ⟨h.1, fun invalid => h.2 invalid.strict⟩

/-! ## One block -/

namespace Effect

/-- The effect kills at least what the other kills and lets through at most what the other
does. What may be generated and what is certainly overwritten are the same. -/
structure MoreCautious (strict plain : Effect) : Prop where
  mayGen : strict.mayGen = plain.mayGen
  mustKilled : strict.mustKilled = plain.mustKilled
  mayKilled : plain.mayKilled ⊆ strict.mayKilled
  killedExpr : plain.killedExpr ⊆ strict.killedExpr
  mustGen : strict.mustGen ⊆ plain.mustGen
  genExpr : strict.genExpr ⊆ plain.genExpr

theorem Describes.moreCautious {strict plain : Effect} {ss : List StmtId}
    (hs : strict.Describes g r true ss) (hp : plain.Describes g r false ss) :
    strict.MoreCautious plain where
  mayGen := IdSet.ext_mem fun v => (hs.reaching v).1.trans (hp.reaching v).1.symm
  mustKilled := IdSet.ext_mem fun v => (hs.reaching v).2.trans (hp.reaching v).2.symm
  mayKilled := hp.available.kill_subset hs.available fun _ _ _ => Ends.strict
  killedExpr := hp.expressions.kill_subset hs.expressions fun _ _ _ => Spoiled.strict
  mustGen := hs.available.gen_subset hp.available (fun _ _ _ h => h) fun _ _ _ => Ends.strict
  genExpr := hs.expressions.gen_subset hp.expressions (fun _ _ _ => Evaluated.plain)
    fun _ _ _ => Spoiled.strict

end Effect

/-! ## Every path -/

namespace Tracks

variable {gen kill gen' kill' : Nat → StmtId → Prop}

theorem staysIn_mono (hg : ∀ v s, gen v s → gen' v s) (hk : ∀ v s, kill' v s → kill v s) :
    staysIn g gen kill b ⊆ staysIn g gen' kill' b := by
  intro v stays qs run
  exact (stays qs run).mono (hg v) (hk v)

theorem staysOut_mono (hg : ∀ v s, gen v s → gen' v s) (hk : ∀ v s, kill' v s → kill v s) :
    staysOut g gen kill b ⊆ staysOut g gen' kill' b := by
  intro v stays qs run
  exact (stays qs run).mono (hg v) (hk v)

end Tracks

namespace Solution

/-- The problem is answered at the block with the given ids. -/
def Answers (sol : Solution) (p : Problem) (b : BlockId) (ins outs : Set Nat) : Prop :=
  ∃ s t, sol.in? p b = some s ∧ sol.out? p b = some t ∧
    ∀ v, (v ∈ s ↔ v ∈ ins) ∧ (v ∈ t ↔ v ∈ outs)

/-- Two solutions answer the problem at the block, and their answers are so related. -/
def CompareAt (rel : IdSet → IdSet → Prop) (p : Problem) (b : BlockId) (sol sol' : Solution) :
    Prop :=
  ∃ ins outs ins' outs', sol.in? p b = some ins ∧ sol.out? p b = some outs ∧
    sol'.in? p b = some ins' ∧ sol'.out? p b = some outs' ∧ rel ins ins' ∧ rel outs outs'

variable {sol sol' : Solution} {p : Problem} {ins outs ins' outs' : Set Nat}

theorem Answers.compareAt_eq (h : sol.Answers p b ins outs) (h' : sol'.Answers p b ins outs) :
    CompareAt (· = ·) p b sol sol' := by
  obtain ⟨s, t, hs, ht, members⟩ := h
  obtain ⟨s', t', hs', ht', members'⟩ := h'
  have same_ins : s = s' := IdSet.ext_mem fun v => (members v).1.trans (members' v).1.symm
  have same_outs : t = t' := IdSet.ext_mem fun v => (members v).2.trans (members' v).2.symm
  exact ⟨s, t, s', t', hs, ht, hs', ht', same_ins, same_outs⟩

theorem Answers.compareAt_subset (h : sol.Answers p b ins outs)
    (h' : sol'.Answers p b ins' outs') (hi : ins ⊆ ins') (ho : outs ⊆ outs') :
    CompareAt (· ⊆ ·) p b sol sol' := by
  obtain ⟨s, t, hs, ht, members⟩ := h
  obtain ⟨s', t', hs', ht', members'⟩ := h'
  refine ⟨s, t, s', t', hs, ht, hs', ht', ?_, ?_⟩
  · intro v hv
    exact (members' v).1.mpr (hi ((members v).1.mp hv))
  · intro v hv
    exact (members' v).2.mpr (ho ((members v).2.mp hv))

end Solution

/-- How an answer under the strict reading relates to that under the plain one: what reaches
is the same, and no more is available. -/
def Problem.Cautious : Problem → IdSet → IdSet → Prop
  | .reach | .liveIn => (· = ·)
  | .availReach | .availExpr => (· ⊆ ·)

theorem Solution.cautious {options options' : Options} {strategy strategy' : Strategy}
    {sol sol' : Solution} (h : analyse g r options strategy = .ok sol)
    (h' : analyse g r options' strategy' = .ok sol') (wf : r.WellFormed)
    (strictly : options.strict = true) (plainly : options'.strict = false) (hb : b ∈ g.blocks)
    (p : Problem) : CompareAt p.Cautious p b sol sol' := by
  cases p with
  | reach =>
    obtain ⟨-, strict⟩ := reach_arrives h hb
    obtain ⟨-, plain⟩ := reach_arrives h' hb
    exact Answers.compareAt_eq strict plain
  | liveIn => exact Answers.compareAt_eq (liveIn_arrives h hb) (liveIn_arrives h' hb)
  | availReach =>
    obtain ⟨-, strict⟩ := availReach_stays h wf hb
    obtain ⟨-, plain⟩ := availReach_stays h' wf hb
    rw [strictly] at strict
    rw [plainly] at plain
    apply Answers.compareAt_subset strict plain
    · exact Tracks.staysIn_mono (fun _ _ begins => begins) (fun _ _ => Ends.strict)
    · exact Tracks.staysOut_mono (fun _ _ begins => begins) (fun _ _ => Ends.strict)
  | availExpr =>
    obtain ⟨-, strict⟩ := availExpr_stays h wf hb
    obtain ⟨-, plain⟩ := availExpr_stays h' wf hb
    rw [strictly] at strict
    rw [plainly] at plain
    apply Answers.compareAt_subset strict plain
    · exact Tracks.staysIn_mono (fun _ _ => Evaluated.plain) (fun _ _ => Spoiled.strict)
    · exact Tracks.staysOut_mono (fun _ _ => Evaluated.plain) (fun _ _ => Spoiled.strict)

/-- **The strict reading is only more cautious.** For every graph and registry that pass the
checks, whatever else is chosen for the two runs, the effect of every block kills no less
under the strict reading and lets through no more, with the same possible definitions and
the same certain kills. Whichever strategies solve, what reaches a block and from where it
can be entered are the same, and no more is available. -/
theorem strict_is_more_cautious (edits : List RegistryEdit) {d : DenseGraph} {inv : Inventory}
    (accepted : DenseGraph.ofFlowGraph g = .ok d)
    (hinv : Inventory.ofFlowGraph g (Registry.initial.run edits) = .ok inv)
    (options options' : Options) :
    ∃ strict plain,
      BlockEffects.compute g (Registry.initial.run edits) { options with strict := true } =
        .ok strict ∧
      BlockEffects.compute g (Registry.initial.run edits) { options' with strict := false } =
        .ok plain ∧
      ∀ b ∈ g.blocks,
        (∃ effect effect', strict.effect? b = some effect ∧ plain.effect? b = some effect' ∧
          effect.MoreCautious effect') ∧
        ∀ strategy strategy' sol sol', strict.solve strategy = .ok sol →
          plain.solve strategy' = .ok sol' → ∀ p, Solution.CompareAt p.Cautious p b sol sol' := by
  have wf := Registry.wellFormed_run edits
  obtain ⟨strict, computed⟩ := BlockEffects.compute_ok accepted hinv { options with strict := true }
  obtain ⟨plain, computed'⟩ :=
    BlockEffects.compute_ok accepted hinv { options' with strict := false }
  refine ⟨strict, plain, computed, computed', ?_⟩
  intro b hb
  constructor
  · obtain ⟨effect, found, describes⟩ := BlockEffects.effect_describes computed wf hb
    obtain ⟨effect', found', describes'⟩ := BlockEffects.effect_describes computed' wf hb
    exact ⟨effect, effect', found, found', describes.moreCautious describes'⟩
  · intro strategy strategy' sol sol' solves solves'
    have solved := analyse_eq_ok.mpr ⟨strict, computed, solves⟩
    have solved' := analyse_eq_ok.mpr ⟨plain, computed', solves'⟩
    exact Solution.cautious solved solved' wf rfl rfl hb

/-- Without the strict reading, what reads the globals stays available through the loop that
writes a local variable. One sweep is not enough, so the worklist finishes. -/
theorem reuse_plain : ∃ sol,
    analyse reuse reuseRegistry { sweepLimit := some 1 } .reversePostorder = .ok sol ∧
    sol.in? .availExpr ⟨2⟩ = some (.ofList [0, 1, 2]) := by
  have answer :
      (analyse reuse reuseRegistry { sweepLimit := some 1 } .reversePostorder).toOption.map
        (fun sol => sol.in? .availExpr ⟨2⟩) = some (some (.ofList [0, 1, 2])) := by
    decide +kernel
  exact exists_solution answer

/-- Under the strict reading it does not, and nothing becomes available for it. -/
theorem reuse_cautious :
    (∃ d, DenseGraph.ofFlowGraph reuse = .ok d) ∧
    (∃ inv, Inventory.ofFlowGraph reuse reuseRegistry = .ok inv) ∧
    ∃ strict plain sol sol' ins ins',
      BlockEffects.compute reuse reuseRegistry { strict := true } = .ok strict ∧
      BlockEffects.compute reuse reuseRegistry { sweepLimit := some 1 } = .ok plain ∧
      strict.solve .reversePostorder = .ok sol ∧ plain.solve .reversePostorder = .ok sol' ∧
      sol.in? .availExpr ⟨2⟩ = some ins ∧ sol'.in? .availExpr ⟨2⟩ = some ins' ∧
      ins ⊆ ins' ∧ 1 ∉ ins ∧ 1 ∈ ins' := by
  obtain ⟨sol, solved, -, hin, -⟩ := reuse_solved
  obtain ⟨sol', solved', hin'⟩ := reuse_plain
  obtain ⟨strict, computed, solves⟩ := analyse_eq_ok.mp solved
  obtain ⟨plain, computed', solves'⟩ := analyse_eq_ok.mp solved'
  have accepted := BlockEffects.accepted_of_compute computed
  obtain ⟨-, inv, -, -, -, hinv, -⟩ := BlockEffects.compute_cases computed
  have hb : ⟨2⟩ ∈ reuse.blocks := by decide
  obtain ⟨k, k', hk, hk', cautious⟩ :=
    strict_is_more_cautious reuseEdits accepted hinv {} { sweepLimit := some 1 }
  obtain rfl := Except.ok.inj (computed.symm.trans hk)
  obtain rfl := Except.ok.inj (computed'.symm.trans hk')
  obtain ⟨-, compare⟩ := cautious ⟨2⟩ hb
  obtain ⟨ins, outs, ins', outs', answer, -, answer', -, subset, -⟩ :=
    compare _ _ sol sol' solves solves' .availExpr
  obtain rfl := Option.some.inj (hin.symm.trans answer)
  obtain rfl := Option.some.inj (hin'.symm.trans answer')
  exact ⟨⟨_, accepted⟩, ⟨inv, hinv⟩, strict, plain, sol, sol', _, _, computed, computed', solves,
    solves', hin, hin', subset, by decide, by decide⟩

end MemFlow

import MemFlow.Analysis.Solution
import MemFlow.Proofs.LocalEffects

/-!
# Analyses that succeed

An analysis that gives a solution has accepted the graph and the registry. Under
every strategy and every limit its ins and outs are those on which the worklist
settles, and so they are known from paths.
-/

namespace MemFlow

variable {g : FlowGraph} {r : Registry} {options : Options} {strategy : Strategy}

/-! ## What was accepted -/

abbrev FlowGraph.dense (g : FlowGraph) (entry : Fin g.blocks.length) : DenseGraph :=
  ⟨g.blocks, g.denseShape entry, g.denseOrder⟩

namespace BlockEffects

theorem compute_cases {k : BlockEffects} (h : compute g r options = .ok k) :
    ∃ (entry : Fin g.blocks.length) (inv : Inventory) (effects : Vector Effect g.blocks.length),
      DenseGraph.ofFlowGraph g = .ok (g.dense entry) ∧ g.blocks.get entry = g.entry ∧
      Inventory.ofFlowGraph g r = .ok inv ∧
      Effect.ofFlowGraph g inv r options.strict options.parallel = .ok effects.toList ∧
      k = ⟨options, g.dense entry, inv, effects⟩ := by
  unfold compute at h
  split at h
  · cases h
  · rename_i graph hg
    split at h
    · cases h
    · rename_i inv hinv
      split at h
      · cases h
      · rename_i effects he
        cases h
        obtain ⟨wf, entry, hentry, rfl⟩ := DenseGraph.ofFlowGraph_cases hg
        refine ⟨entry, inv, _, hg, hentry, hinv, ?_, rfl⟩
        simpa using he

theorem accepted_of_compute {k : BlockEffects} (h : compute g r options = .ok k) :
    DenseGraph.ofFlowGraph g = .ok k.graph := by
  obtain ⟨entry, inv, effects, hg, -, -, -, rfl⟩ := compute_cases h
  exact hg

theorem solve_cases {k : BlockEffects} {sol : Solution} (h : k.solve strategy = .ok sol)
    (hs : k.graph.shape.Sound)
    (cover : ∀ order, k.graph.rpo = .ok order → ∀ b, b ∈ order) :
    ∃ solver, sol = k.solvedBy strategy solver ∧ ∀ eq : Equations k.graph.size, eq.Grounded →
      (solver eq).ins = eq.insOf k.graph.shape (eq.fixed k.graph.shape) ∧
      (solver eq).outs = eq.fixed k.graph.shape := by
  unfold solve at h
  split at h
  · cases h
    exact ⟨_, rfl, fun eq _ => ⟨rfl, rfl⟩⟩
  · cases h
  · rename_i order ho
    cases h
    refine ⟨_, rfl, ?_⟩
    intro eq hg
    obtain ⟨run, -, answer⟩ :=
      Equations.sweeps_fixed hs hg (cover order ho) k.options.sweepLimit
    rw [answer]
    exact ⟨rfl, rfl⟩

theorem in?_solvedBy (k : BlockEffects) (solver : Equations k.graph.size → Fixpoint k.graph.size)
    (p : Problem) {b : BlockId} {i : Fin k.graph.size} (h : k.graph.position? b = some i) :
    (k.solvedBy strategy solver).in? p b = some ((solver (k.equations p)).ins.get i) := by
  cases p <;> exact congrArg (Option.map _) h

theorem out?_solvedBy (k : BlockEffects) (solver : Equations k.graph.size → Fixpoint k.graph.size)
    (p : Problem) {b : BlockId} {i : Fin k.graph.size} (h : k.graph.position? b = some i) :
    (k.solvedBy strategy solver).out? p b = some ((solver (k.equations p)).outs.get i) := by
  cases p <;> exact congrArg (Option.map _) h

end BlockEffects

theorem FlowGraph.WellFormed.position?_dense (wf : g.WellFormed) (entry i : Fin g.blocks.length) :
    (g.dense entry).position? (g.blocks.get i) = some i := by
  refine List.finIdxOf?_eq_some_iff.mpr ⟨rfl, ?_⟩
  intro j hj he
  have := (List.Nodup.getElem_inj_iff wf.nodup).mp he
  omega

/-- Every strategy that solves answers the outs on which the worklist settles. -/
theorem BlockEffects.solve_answers {entry : Fin g.blocks.length} {inv : Inventory}
    {effects : Vector Effect g.blocks.length}
    (hg : DenseGraph.ofFlowGraph g = .ok (g.dense entry)) {sol : Solution}
    (h : solve ⟨options, g.dense entry, inv, effects⟩ strategy = .ok sol) (p : Problem)
    (i : Fin g.blocks.length) :
    let eq := equations ⟨options, g.dense entry, inv, effects⟩ p
    eq.Grounded →
      sol.in? p (g.blocks.get i) =
        some ((eq.insOf (g.denseShape entry) (eq.fixed (g.denseShape entry))).get i) ∧
      sol.out? p (g.blocks.get i) = some ((eq.fixed (g.denseShape entry)).get i) := by
  intro eq grounded
  obtain ⟨wf, -⟩ := DenseGraph.ofFlowGraph_cases hg
  obtain ⟨solver, rfl, solved⟩ := solve_cases h (DenseGraph.sound_of_accepted hg)
    (fun order ho => DenseGraph.mem_order hg ho)
  obtain ⟨ins, outs⟩ := solved eq grounded
  have found := wf.position?_dense entry i
  rw [in?_solvedBy _ _ p found, out?_solvedBy _ _ p found, ins, outs]
  exact ⟨rfl, rfl⟩

theorem analyse_eq_ok {sol : Solution} : analyse g r options strategy = .ok sol ↔
    ∃ k, BlockEffects.compute g r options = .ok k ∧ k.solve strategy = .ok sol := by
  unfold analyse
  cases BlockEffects.compute g r options <;> simp

theorem exists_solution {α : Type} {read : Solution → α} {answer : α}
    (h : (analyse g r options strategy).toOption.map read = some answer) :
    ∃ sol, analyse g r options strategy = .ok sol ∧ read sol = answer := by
  cases solved : analyse g r options strategy with
  | error e =>
    rw [solved] at h
    cases h
  | ok sol =>
    rw [solved] at h
    exact ⟨sol, rfl, Option.some.inj h⟩

/-- **What an analysis that succeeds has accepted and answers.** -/
theorem analyse_cases {sol : Solution} (h : analyse g r options strategy = .ok sol) :
    ∃ (entry : Fin g.blocks.length) (inv : Inventory) (effects : Vector Effect g.blocks.length),
      g.WellFormed ∧ g.blocks.get entry = g.entry ∧
      Inventory.ofFlowGraph g r = .ok inv ∧
      Effect.ofFlowGraph g inv r options.strict options.parallel = .ok effects.toList ∧
      ∀ (p : Problem) (i : Fin g.blocks.length),
        let eq := BlockEffects.equations ⟨options, g.dense entry, inv, effects⟩ p
        eq.Grounded →
          sol.in? p (g.blocks.get i) =
            some ((eq.insOf (g.denseShape entry) (eq.fixed (g.denseShape entry))).get i) ∧
          sol.out? p (g.blocks.get i) = some ((eq.fixed (g.denseShape entry)).get i) := by
  obtain ⟨k, hk, hsolve⟩ := analyse_eq_ok.mp h
  obtain ⟨entry, inv, effects, hg, hentry, hinv, heff, rfl⟩ := BlockEffects.compute_cases hk
  obtain ⟨wf, -⟩ := DenseGraph.ofFlowGraph_cases hg
  exact ⟨entry, inv, effects, wf, hentry, hinv, heff, BlockEffects.solve_answers hg hsolve⟩

/-! ## What the answers mean -/

namespace Effect.Channel

variable {ch : Channel} {gen kill : Nat → StmtId → Prop} {effects : Vector Effect g.blocks.length}

theorem means_get
    (h : List.Forall₂ (fun b e => ch.Means gen kill e (g.stmts b)) g.blocks effects.toList)
    (i : Fin g.blocks.length) :
    ch.Means gen kill (effects.get i) (g.stmts (g.blocks.get i)) := by
  have := h.get i.isLt (by simp)
  simpa [get_eq] using this

theorem tracks (eq : Equations g.blocks.length)
    (h : List.Forall₂ (fun b e => ch.Means gen kill e (g.stmts b)) g.blocks effects.toList)
    (hgen : eq.gen = Vector.ofFn fun i => ch.gen (effects.get i))
    (hkill : eq.kill = Vector.ofFn fun i => ch.kill (effects.get i)) : Tracks g eq gen kill := by
  constructor
  · intro i v
    rw [hgen, ← (means_get h i v).1, get_eq, Vector.getElem_ofFn]
  · intro i v
    rw [hkill, ← (means_get h i v).2, get_eq, Vector.getElem_ofFn]

/-- The equations of a problem take what they generate and kill from a channel. -/
structure Feeds (ch : Channel) (c : Confluence) (p : Problem) : Prop where
  confluence_eq : ∀ k : BlockEffects, (k.equations p).confluence = c
  gen_eq : ∀ k : BlockEffects, (k.equations p).gen = Vector.ofFn fun i => ch.gen (k.effects.get i)
  kill_eq : ∀ k : BlockEffects,
    (k.equations p).kill = Vector.ofFn fun i => ch.kill (k.effects.get i)

end Effect.Channel

/-- The effect of a block of the graph, by what its statements do. -/
theorem BlockEffects.effect_means {k : BlockEffects} (h : compute g r options = .ok k)
    {ch : Effect.Channel} {gen kill : Nat → StmtId → Prop}
    (tells : ∀ inv, Inventory.ofFlowGraph g r = .ok inv → ch.Tells g inv r options.strict gen kill)
    {b : BlockId} (hb : b ∈ g.blocks) :
    ∃ effect, k.effect? b = some effect ∧ ch.Means gen kill effect (g.stmts b) := by
  obtain ⟨entry, inv, effects, hg, -, hinv, heff, rfl⟩ := compute_cases h
  obtain ⟨wf, -⟩ := DenseGraph.ofFlowGraph_cases hg
  obtain ⟨i, rfl⟩ := List.get_of_mem hb
  refine ⟨effects.get i, ?_, ?_⟩
  · exact congrArg (Option.map _) (wf.position?_dense entry i)
  · exact Effect.Channel.means_get (Effect.Channel.means_ofFlowGraph (tells inv hinv) heff) i

/-- Reaching definitions are what arrives along some path. -/
theorem reach_arrives {sol : Solution} (h : analyse g r options strategy = .ok sol) {b : BlockId}
    (hb : b ∈ g.blocks) :
    g.WellFormed ∧ ∃ ins outs, sol.in? .reach b = some ins ∧ sol.out? .reach b = some outs ∧
      ∀ v, (v ∈ ins ↔ v ∈ Tracks.arrivesIn g (Begins g.Writes) (Ends g (g.MustKills r)) b) ∧
        (v ∈ outs ↔ v ∈ Tracks.arrivesOut g (Begins g.Writes) (Ends g (g.MustKills r)) b) := by
  obtain ⟨entry, inv, effects, wf, he, hinv, heff, answers⟩ := analyse_cases h
  obtain ⟨i, rfl⟩ := List.get_of_mem hb
  have tr := Effect.Channel.tracks
    (BlockEffects.equations ⟨options, g.dense entry, inv, effects⟩ .reach)
    (Effect.Channel.means_ofFlowGraph (Effect.Channel.reaching_tells hinv options.strict) heff)
    rfl rfl
  obtain ⟨hin, hout⟩ := answers .reach i (fun hc => by cases hc)
  refine ⟨wf, _, _, hin, hout, ?_⟩
  intro v
  exact ⟨Tracks.mem_insOf_union wf he tr rfl i v, Tracks.mem_fixed_union wf he tr rfl i v⟩

theorem Tracks.grounded {eq : Equations g.blocks.length} {gen kill : Nat → StmtId → Prop}
    (tr : Tracks g eq gen kill)
    (known : ∀ s ∈ g.allStmts, ∀ v, gen v s → v ∈ eq.domain) : eq.Grounded := by
  intro _ i v hv
  obtain ⟨pre, s, post, hs, begins, -⟩ := (tr.gen_iff i v).mp hv
  have hmem : s ∈ g.allStmts :=
    List.mem_flatMap.mpr ⟨g.blocks.get i, List.get_mem _ _, by rw [hs]; simp⟩
  exact known s hmem v begins

/-- An intersection answers what stays along every path, if a channel tells what
begins and what ends. -/
theorem stays_of_tells {p : Problem} {ch : Effect.Channel} {gen kill : Nat → StmtId → Prop}
    {sol : Solution} (h : analyse g r options strategy = .ok sol) (feeds : ch.Feeds .inter p)
    (tells : ∀ inv, Inventory.ofFlowGraph g r = .ok inv → ch.Tells g inv r options.strict gen kill)
    (known : ∀ k : BlockEffects, Inventory.ofFlowGraph g r = .ok k.inventory →
      ∀ s ∈ g.allStmts, ∀ v, gen v s → v ∈ (k.equations p).domain)
    {b : BlockId} (hb : b ∈ g.blocks) :
    g.WellFormed ∧ ∃ ins outs, sol.in? p b = some ins ∧ sol.out? p b = some outs ∧
      ∀ v, (v ∈ ins ↔ v ∈ Tracks.staysIn g gen kill b) ∧
        (v ∈ outs ↔ v ∈ Tracks.staysOut g gen kill b) := by
  obtain ⟨entry, inv, effects, wf, he, hinv, heff, answers⟩ := analyse_cases h
  obtain ⟨i, rfl⟩ := List.get_of_mem hb
  let k : BlockEffects := ⟨options, g.dense entry, inv, effects⟩
  have tr : Tracks g (k.equations p) gen kill :=
    Effect.Channel.tracks _ (Effect.Channel.means_ofFlowGraph (tells inv hinv) heff)
      (feeds.gen_eq k) (feeds.kill_eq k)
  have grounded : (k.equations p).Grounded := tr.grounded (known k hinv)
  obtain ⟨hin, hout⟩ := answers p i grounded
  refine ⟨wf, _, _, hin, hout, ?_⟩
  intro v
  exact ⟨Tracks.mem_insOf_inter wf he tr (feeds.confluence_eq k) grounded i v,
    Tracks.mem_fixed_inter wf he tr (feeds.confluence_eq k) grounded i v⟩

theorem mem_defIds {inv : Inventory} (hinv : Inventory.ofFlowGraph g r = .ok inv) {s : StmtId}
    (hs : g.Defines s) : s.num ∈ inv.defIds :=
  IdSet.mem_ofList.mpr (List.mem_map.mpr ⟨_, (Inventory.mem_defs hinv).mpr ⟨s, hs, rfl⟩, rfl⟩)

/-- Available reaching definitions are what stays along every path. -/
theorem availReach_stays {sol : Solution} (h : analyse g r options strategy = .ok sol)
    (hr : r.WellFormed) {b : BlockId} (hb : b ∈ g.blocks) :
    g.WellFormed ∧ ∃ ins outs,
      sol.in? .availReach b = some ins ∧ sol.out? .availReach b = some outs ∧
      ∀ v, (v ∈ ins ↔
          v ∈ Tracks.staysIn g (Begins g.IsCertain) (Ends g (g.MayKills r options.strict)) b) ∧
        (v ∈ outs ↔
          v ∈ Tracks.staysOut g (Begins g.IsCertain) (Ends g (g.MayKills r options.strict)) b) := by
  have feeds : Effect.Channel.available.Feeds .inter .availReach :=
    ⟨fun _ => rfl, fun _ => rfl, fun _ => rfl⟩
  refine stays_of_tells h feeds
    (fun inv hinv => Effect.Channel.available_tells hinv hr options.strict) ?_ hb
  rintro k hinv s hs v ⟨rfl, certain⟩
  exact mem_defIds hinv ⟨hs, certain.writes⟩

end MemFlow

import MemFlow.Proofs.LocalSets
import MemFlow.Proofs.Strictness

/-!
# What the strict reading kills

The strict reading is for callers that must take every write for one of global and imported
storage. What it adds to a closure is two summaries, and kills compare ids, so it reaches just
those definitions and expressions that name a summary themselves. Of the others it kills no more
than the plain reading does: a write to a local variable spares what names a global variable.
-/

namespace MemFlow

/-- The set names one of the three summaries. -/
def DescSet.NamesSummary (places : DescSet) : Prop := ∃ a ∈ places, a.isSentinel = true

/-- The set names something of global or imported storage, such as a summary. -/
def Registry.NamesGlobal (r : Registry) (places : DescSet) : Prop :=
  ∃ a ∈ places, ∃ x, r.desc? a = some x ∧ x.storage.isGlobal = true

/-- If a statement of the row writes, every other definition and every expression at such places
is killed. -/
structure Effect.KillsEvery (effect : Effect) (g : FlowGraph) (ss : List StmtId)
    (such : DescSet → Prop) : Prop where
  defs : ∀ s ∈ ss, g.Defines s → ∀ d, g.Defines d → d ≠ s → such (g.written d) →
    d.num ∈ effect.mayKilled
  exprs : ∀ s ∈ ss, g.Defines s → ∀ e used, g.Computes e → g.uses e = some used → such used →
    e.num ∈ effect.killedExpr

/-- If a statement of the row writes, every other definition and every expression at such places
is overlapped by what some statement of the row may write, a definition by another than its
own. -/
structure FlowGraph.OverlapsEvery (g : FlowGraph) (r : Registry) (ss : List StmtId)
    (such : DescSet → Prop) : Prop where
  defs : ∀ s ∈ ss, g.Defines s → ∀ d, g.Defines d → d ≠ s → such (g.written d) →
    ∃ t ∈ ss, t ≠ d ∧ g.Touches r false t (g.written d)
  exprs : ∀ s ∈ ss, g.Defines s → ∀ e used, g.Computes e → g.uses e = some used → such used →
    ∃ t ∈ ss, g.Touches r false t used

variable {g : FlowGraph} {r : Registry} {inv : Inventory} {s d : StmtId} {e : ExprId}
  {places : DescSet} {ss : List StmtId} {strict : Bool} {effect : Effect}

/-! ## One write -/

theorem DescId.eq_of_isSentinel {a : DescId} (h : a.isSentinel = true) :
    a = .allMem ∨ a = .globalMem ∨ a = .importMem := by
  have first : a.num < 3 := of_decide_eq_true h
  obtain ⟨n⟩ := a
  simp only [allMem, globalMem, importMem, DescId.mk.injEq] at first ⊢
  omega

namespace FlowGraph

theorem touches_of_namesSummary (hinv : Inventory.ofFlowGraph g r = .ok inv) (wf : r.WellFormed)
    (hs : g.Defines s) (h : places.NamesSummary) : g.Touches r true s places := by
  obtain ⟨a, ha, sentinel⟩ := h
  rcases DescId.eq_of_isSentinel sentinel with rfl | other
  · -- All memory overlaps whatever is written, under either reading.
    obtain ⟨w, hw⟩ := writes_iff_written.mp hs.2
    obtain ⟨x, hx⟩ := Registry.isRegistered_iff.mp (Inventory.knows_written hinv hs.1 w hw)
    obtain ⟨y, hy, all⟩ := wf.desc?_allMem
    have overlaps : x.overlaps y = true := by
      rw [Descriptor.overlaps_comm]
      exact Descriptor.overlaps_of_allMem all
    exact Or.inl ⟨w, hw, .allMem, ha, x, y, hx, hy, overlaps⟩
  · refine Or.inr ⟨rfl, hs.2, ?_⟩
    rcases other with rfl | rfl
    · exact Or.inl ha
    · exact Or.inr ha

theorem touches_strict_iff (h : ¬ places.NamesSummary) :
    g.Touches r true s places ↔ g.Touches r false s places := by
  refine ⟨?_, Touches.strict⟩
  rintro (overlap | ⟨-, -, named | named⟩)
  · exact Or.inl overlap
  · exact absurd ⟨_, named, rfl⟩ h
  · exact absurd ⟨_, named, rfl⟩ h

end FlowGraph

/-! ## A row of statements -/

namespace Effect.Describes

theorem mem_mayKilled (h : effect.Describes g r strict ss) :
    d.num ∈ effect.mayKilled ↔
      g.Defines d ∧ ∃ s ∈ ss, s ≠ d ∧ g.Touches r strict s (g.written d) := by
  refine (h.available d.num).2.trans ?_
  constructor
  · rintro ⟨s, hs, defines, other, kills⟩
    exact ⟨defines, s, hs, fun same => other (congrArg StmtId.num same), kills⟩
  · rintro ⟨defines, s, hs, other, kills⟩
    exact ⟨s, hs, defines, fun same => other (congrArg StmtId.mk same), kills⟩

theorem mem_killedExpr (h : effect.Describes g r strict ss) (hc : g.Computes e)
    (hu : g.uses e = some places) :
    e.num ∈ effect.killedExpr ↔ ∃ s ∈ ss, g.Touches r strict s places := by
  refine (h.expressions e.num).2.trans ?_
  constructor
  · rintro ⟨s, hs, -, used, hused, touches⟩
    obtain rfl : used = places := Option.some.inj (hused.symm.trans hu)
    exact ⟨s, hs, touches⟩
  · rintro ⟨s, hs, touches⟩
    exact ⟨s, hs, hc, places, hu, touches⟩

theorem kills_summaries (h : effect.Describes g r true ss)
    (hinv : Inventory.ofFlowGraph g r = .ok inv) (wf : r.WellFormed) :
    effect.KillsEvery g ss DescSet.NamesSummary where
  defs s hs writes d defines other named := by
    have touches := FlowGraph.touches_of_namesSummary hinv wf writes named
    exact h.mem_mayKilled.mpr ⟨defines, s, hs, other.symm, touches⟩
  exprs s hs writes e used computes hu named := by
    have touches := FlowGraph.touches_of_namesSummary hinv wf writes named
    exact (h.mem_killedExpr computes hu).mpr ⟨s, hs, touches⟩

theorem mem_mayKilled_of_not_namesSummary (h : effect.Describes g r true ss) (hd : g.Defines d)
    (unnamed : ¬ (g.written d).NamesSummary) :
    d.num ∈ effect.mayKilled ↔ ∃ s ∈ ss, s ≠ d ∧ g.Touches r false s (g.written d) := by
  simp only [h.mem_mayKilled, hd, FlowGraph.touches_strict_iff unnamed, true_and]

theorem mem_killedExpr_of_not_namesSummary (h : effect.Describes g r true ss)
    (hc : g.Computes e) (hu : g.uses e = some places) (unnamed : ¬ places.NamesSummary) :
    e.num ∈ effect.killedExpr ↔ ∃ s ∈ ss, g.Touches r false s places := by
  simp only [h.mem_killedExpr hc hu, FlowGraph.touches_strict_iff unnamed]

/-- What names a summary is killed, so the rest decides. -/
theorem kills_globals_iff (h : effect.Describes g r true ss)
    (hinv : Inventory.ofFlowGraph g r = .ok inv) (wf : r.WellFormed) :
    effect.KillsEvery g ss r.NamesGlobal ↔
      g.OverlapsEvery r ss fun places => r.NamesGlobal places ∧ ¬ places.NamesSummary := by
  constructor
  · intro kills
    constructor
    · intro s hs writes d defines other ⟨global, unnamed⟩
      rw [← h.mem_mayKilled_of_not_namesSummary defines unnamed]
      exact kills.defs s hs writes d defines other global
    · intro s hs writes e used computes hu ⟨global, unnamed⟩
      rw [← h.mem_killedExpr_of_not_namesSummary computes hu unnamed]
      exact kills.exprs s hs writes e used computes hu global
  · intro overlaps
    have summaries := h.kills_summaries hinv wf
    constructor
    · intro s hs writes d defines other global
      by_cases named : (g.written d).NamesSummary
      · exact summaries.defs s hs writes d defines other named
      · rw [h.mem_mayKilled_of_not_namesSummary defines named]
        exact overlaps.defs s hs writes d defines other ⟨global, named⟩
    · intro s hs writes e used computes hu global
      by_cases named : used.NamesSummary
      · exact summaries.exprs s hs writes e used computes hu named
      · rw [h.mem_killedExpr_of_not_namesSummary computes hu named]
        exact overlaps.exprs s hs writes e used computes hu ⟨global, named⟩

end Effect.Describes

/-- **The strict reading reaches summaries only.** For every graph and registry that pass the
checks, the effects are computed under the strict reading. In every block that writes, each
other definition and each expression that names a summary is killed. One that names no summary
is killed exactly if what a statement of the block, other than the definition, may write
overlaps it. So a block that writes kills all that names global or imported storage exactly if
those of them that name no summary are overlapped. -/
theorem strict_kills_globals_iff (edits : List RegistryEdit) {dense : DenseGraph}
    (accepted : DenseGraph.ofFlowGraph g = .ok dense)
    (hinv : Inventory.ofFlowGraph g (Registry.initial.run edits) = .ok inv) (options : Options) :
    let r := Registry.initial.run edits
    ∃ k, BlockEffects.compute g r { options with strict := true } = .ok k ∧
      ∀ b ∈ g.blocks, ∃ effect, k.effect? b = some effect ∧
        effect.KillsEvery g (g.stmts b) DescSet.NamesSummary ∧
        (∀ d, g.Defines d → ¬ (g.written d).NamesSummary →
          (d.num ∈ effect.mayKilled ↔
            ∃ s ∈ g.stmts b, s ≠ d ∧ g.Touches r false s (g.written d))) ∧
        (∀ e used, g.Computes e → g.uses e = some used → ¬ used.NamesSummary →
          (e.num ∈ effect.killedExpr ↔ ∃ s ∈ g.stmts b, g.Touches r false s used)) ∧
        (effect.KillsEvery g (g.stmts b) r.NamesGlobal ↔
          g.OverlapsEvery r (g.stmts b) fun places =>
            r.NamesGlobal places ∧ ¬ places.NamesSummary) := by
  intro r
  have wf : r.WellFormed := Registry.wellFormed_run edits
  obtain ⟨k, computed⟩ := BlockEffects.compute_ok accepted hinv { options with strict := true }
  refine ⟨k, computed, ?_⟩
  intro b hb
  obtain ⟨effect, found, describes⟩ := BlockEffects.effect_describes computed wf hb
  exact ⟨effect, found, describes.kills_summaries hinv wf,
    fun d => describes.mem_mayKilled_of_not_namesSummary,
    fun e used => describes.mem_killedExpr_of_not_namesSummary,
    describes.kills_globals_iff hinv wf⟩

/-- One block writes a place. The next evaluates an expression that reads it and writes a local
variable. -/
def beside (place : DescId) : FlowGraph := GraphTable.toFlowGraph {
  entry := ⟨0⟩, blocks := [⟨0⟩, ⟨1⟩], rpo := [⟨0⟩, ⟨1⟩]
  preds := [(⟨1⟩, [⟨0⟩])], succs := [(⟨0⟩, [⟨1⟩])], stmts := [(⟨0⟩, [⟨0⟩]), (⟨1⟩, [⟨1⟩])]
  access := [(⟨0⟩, { possible := .ofList [place] }), (⟨1⟩, { certain := some ⟨3⟩ })]
  exprs := [(⟨1⟩, [⟨0⟩])], uses := [(⟨0⟩, .ofList [place])] }

def besideEdits : List RegistryEdit :=
  [.declare "x" .localVar, .declare "g" .globalVar,
    .register { base := ⟨3⟩, kind := .exact, size := 4 },
    .register { base := ⟨4⟩, kind := .exact, size := 4 }]

theorem defines_beside_place (place : DescId) : (beside place).Defines ⟨0⟩ := by
  have written : place ∈ (beside place).written ⟨0⟩ := by
    change place ∈ DescSet.ofList [place]
    simp [DescSet.ofList]
  exact ⟨List.mem_cons_self, FlowGraph.writes_iff_written.mpr ⟨place, written⟩⟩

theorem defines_beside_local (place : DescId) : (beside place).Defines ⟨1⟩ :=
  ⟨List.mem_cons_of_mem _ List.mem_cons_self, _, rfl, rfl⟩

theorem computes_beside (place : DescId) : (beside place).Computes ⟨0⟩ :=
  ⟨⟨1⟩, (defines_beside_local place).1, List.mem_cons_self⟩

/-- If the place is the summary of the globals, the write to the local variable kills both. -/
theorem beside_summary_killed :
    ∃ k effect, BlockEffects.compute (beside .globalMem) (Registry.initial.run besideEdits)
        { strict := true } = .ok k ∧
      k.effect? ⟨1⟩ = some effect ∧ 0 ∈ effect.mayKilled ∧ 0 ∈ effect.killedExpr := by
  have accepted : ∃ dense, DenseGraph.ofFlowGraph (beside .globalMem) = .ok dense := ⟨_, rfl⟩
  have collected : ∃ inv, Inventory.ofFlowGraph (beside .globalMem)
      (Registry.initial.run besideEdits) = .ok inv := ⟨_, rfl⟩
  obtain ⟨dense, hdense⟩ := accepted
  obtain ⟨inv, hinv⟩ := collected
  obtain ⟨k, computed, blocks⟩ := strict_kills_globals_iff besideEdits hdense hinv {}
  obtain ⟨effect, found, kills, -⟩ := blocks ⟨1⟩ (by decide)
  have named : (DescSet.ofList [.globalMem]).NamesSummary := ⟨.globalMem, by decide, rfl⟩
  exact ⟨k, effect, computed, found,
    kills.defs ⟨1⟩ (by decide) (defines_beside_local _) ⟨0⟩ (defines_beside_place _) (by decide)
      named,
    kills.exprs ⟨1⟩ (by decide) (defines_beside_local _) ⟨0⟩ _ (computes_beside _) rfl named⟩

/-- **A global variable is spared.** If the place is a global variable itself, the write to the
local variable kills neither, under the strict reading too. -/
theorem beside_global_spared :
    ∃ k effect, BlockEffects.compute (beside ⟨4⟩) (Registry.initial.run besideEdits)
        { strict := true } = .ok k ∧
      k.effect? ⟨1⟩ = some effect ∧ 0 ∉ effect.mayKilled ∧ 0 ∉ effect.killedExpr ∧
      ¬ effect.KillsEvery (beside ⟨4⟩) ((beside ⟨4⟩).stmts ⟨1⟩)
        (Registry.initial.run besideEdits).NamesGlobal := by
  have computes : (BlockEffects.compute (beside ⟨4⟩) (Registry.initial.run besideEdits)
      { strict := true }).toOption.bind (·.effect? ⟨1⟩) = some {
        mayGen := .ofList [1], mustGen := .ofList [1], genExpr := .ofList [0] } := by
    decide +kernel
  cases computed : BlockEffects.compute (beside ⟨4⟩) (Registry.initial.run besideEdits)
      { strict := true } with
  | error e =>
    rw [computed] at computes
    cases computes
  | ok k =>
    rw [computed] at computes
    refine ⟨k, _, rfl, computes, by decide, by decide, ?_⟩
    intro kills
    have global : (Registry.initial.run besideEdits).NamesGlobal (.ofList [⟨4⟩]) :=
      ⟨⟨4⟩, by decide, _, rfl, rfl⟩
    have killed := kills.defs ⟨1⟩ (by decide) (defines_beside_local _) ⟨0⟩
      (defines_beside_place _) (by decide) global
    exact absurd killed (by decide)

end MemFlow

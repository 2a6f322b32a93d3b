import MemFlow.Proofs.PathExactness

/-!
# How the analyses compare

What certainly happens may happen: a statement that overwrites a definition for
certain is one that may overwrite it. So the must-sets of a block lie within its
may-sets, and a definition that is available at a block also reaches it. The
latter compares a greatest with a least solution; what circulates in a loop
without ever being defined is in neither, because both are known from paths.
-/

namespace MemFlow

/-! ## Kills -/

theorem Registry.WellFormed.overlaps_of_overwrites {r : Registry} (wf : r.WellFormed)
    {a b : DescId} {da db : Descriptor} (ha : r.desc? a = some da) (hb : r.desc? b = some db)
    (h : da.overwrites db = true) : da.overlaps db = true := by
  simp only [Descriptor.overwrites, Descriptor.isDefinite, Descriptor.isExact, Bool.and_eq_true,
    decide_eq_true_eq] at h
  obtain ⟨⟨⟨⟨⟨exact_a, -⟩, exact_b, -⟩, base⟩, start⟩, stop⟩ := h
  have sa := wf.sentinel?_of_exact ha exact_a
  have sb := wf.sentinel?_of_exact hb exact_b
  -- Both have a byte, and those of `b` are among those of `a`.
  obtain ⟨nonempty_a, -⟩ := (wf.ordinary ha sa).extent (by simp [exact_a])
  obtain ⟨nonempty_b, -⟩ := (wf.ordinary hb sb).extent (by simp [exact_b])
  have left : da.offset < db.stop := by omega
  have right : db.offset < da.stop := by omega
  simp [Descriptor.overlaps, sa, sb, base, left, right]

variable {g : FlowGraph} {r : Registry} {b : BlockId}

theorem FlowGraph.MustKills.mayKills (wf : r.WellFormed) {s d : StmtId} (h : g.MustKills r s d)
    (strict : Bool) : g.MayKills r strict s d := by
  obtain ⟨a, b, da, db, ha, hb, hda, hdb, ho⟩ := h
  exact Or.inl ⟨a, mem_written_of_certain ha, b, mem_written_of_certain hb, da, db, hda, hdb,
    wf.overlaps_of_overwrites hda hdb ho⟩

theorem Begins.of_certain {v : Nat} {s : StmtId} (h : Begins g.IsCertain v s) :
    Begins g.Writes v s := ⟨h.1, h.2.writes⟩

theorem Ends.may_of_must (wf : r.WellFormed) (strict : Bool) {v : Nat} {s : StmtId}
    (h : Ends g (g.MustKills r) v s) : Ends g (g.MayKills r strict) v s :=
  ⟨h.1, h.2.1, h.2.2.mayKills wf strict⟩

/-! ## From every path to some path -/

namespace Tracks

variable {gen kill gen' kill' : Nat → StmtId → Prop}

/-- Some path from the entry leads to the block, and what stays along all of them
arrives along this one. -/
theorem staysIn_subset_arrivesIn (wf : g.WellFormed) (hb : b ∈ g.blocks)
    (hg : ∀ v s, gen v s → gen' v s) (hk : ∀ v s, kill' v s → kill v s) :
    staysIn g gen kill b ⊆ arrivesIn g gen' kill' b := by
  intro v stays
  obtain ⟨qs, run⟩ := FlowGraph.exists_isRun wf hb
  exact ⟨qs, run.1, (stays qs run).mono (hg v) (hk v)⟩

theorem staysOut_subset_arrivesOut (wf : g.WellFormed) (hb : b ∈ g.blocks)
    (hg : ∀ v s, gen v s → gen' v s) (hk : ∀ v s, kill' v s → kill v s) :
    staysOut g gen kill b ⊆ arrivesOut g gen' kill' b := by
  intro v stays
  obtain ⟨qs, run⟩ := FlowGraph.exists_isRun wf hb
  exact ⟨qs, run.1, (stays qs run).mono (hg v) (hk v)⟩

end Tracks

/-! ## Must within may -/

theorem BlockEffects.must_subset_may {options : Options} {k : BlockEffects}
    (h : compute g r options = .ok k) (wf : r.WellFormed) (hb : b ∈ g.blocks) :
    ∃ effect, k.effect? b = some effect ∧
      effect.mustGen ⊆ effect.mayGen ∧ effect.mustKilled ⊆ effect.mayKilled := by
  obtain ⟨effect, found, reaching⟩ := effect_means h
    (fun inv hinv => Effect.Channel.reaching_tells hinv options.strict) hb
  obtain ⟨effect', found', available⟩ := effect_means h
    (fun inv hinv => Effect.Channel.available_tells hinv wf options.strict) hb
  obtain rfl : effect = effect' := Option.some.inj (found.symm.trans found')
  refine ⟨effect, found, ?_, ?_⟩
  · intro v hv
    have lasts := (available v).1.mp hv
    exact (reaching v).1.mpr
      (lasts.mono (fun s => Begins.of_certain) (fun s => Ends.may_of_must wf options.strict))
  · intro v hv
    obtain ⟨s, hs, ends⟩ := (reaching v).2.mp hv
    exact (available v).2.mpr ⟨s, hs, ends.may_of_must wf options.strict⟩

/-- **Available definitions reach.** Under every strategy, limit and reading of
overlap, the must-sets of a block lie within its may-sets, and what is available
where a block is entered or left also reaches there. -/
theorem available_within_reaching (edits : List RegistryEdit) {options : Options}
    {k : BlockEffects}
    (h : BlockEffects.compute g (Registry.initial.run edits) options = .ok k)
    (hb : b ∈ g.blocks) :
    (∃ effect, k.effect? b = some effect ∧
      effect.mustGen ⊆ effect.mayGen ∧ effect.mustKilled ⊆ effect.mayKilled) ∧
    ∀ strategy sol, k.solve strategy = .ok sol → ∃ availIn availOut reachIn reachOut,
      sol.in? .availReach b = some availIn ∧ sol.out? .availReach b = some availOut ∧
      sol.in? .reach b = some reachIn ∧ sol.out? .reach b = some reachOut ∧
      availIn ⊆ reachIn ∧ availOut ⊆ reachOut := by
  have hr := Registry.wellFormed_run edits
  refine ⟨BlockEffects.must_subset_may h hr hb, ?_⟩
  intro strategy sol hsolve
  have solved := analyse_eq_ok.mpr ⟨k, h, hsolve⟩
  obtain ⟨wf, availIn, availOut, hai, hao, avail⟩ := availReach_stays solved hr hb
  obtain ⟨-, reachIn, reachOut, hri, hro, reach⟩ := reach_arrives solved hb
  have begins : ∀ v s, Begins g.IsCertain v s → Begins g.Writes v s :=
    fun v s => Begins.of_certain
  have ends : ∀ v s, Ends g (g.MustKills (Registry.initial.run edits)) v s →
      Ends g (g.MayKills (Registry.initial.run edits) options.strict) v s :=
    fun v s => Ends.may_of_must hr options.strict
  refine ⟨availIn, availOut, reachIn, reachOut, hai, hao, hri, hro, ?_, ?_⟩
  · intro v hv
    have stays := (avail v).1.mp hv
    exact (reach v).1.mpr (Tracks.staysIn_subset_arrivesIn wf hb begins ends stays)
  · intro v hv
    have stays := (avail v).2.mp hv
    exact (reach v).2.mpr (Tracks.staysOut_subset_arrivesOut wf hb begins ends stays)

/-- Behind the loop the write of all of the variable is available, and it reaches. -/
theorem relay_available_reaches :
    ∃ k sol, BlockEffects.compute relay relayRegistry { strict := true } = .ok k ∧
      ⟨2⟩ ∈ relay.blocks ∧ k.solve .reversePostorder = .ok sol ∧
      ∃ availIn reachIn, sol.in? .availReach ⟨2⟩ = some availIn ∧
        sol.in? .reach ⟨2⟩ = some reachIn ∧ 1 ∈ availIn ∧ availIn ⊆ reachIn := by
  obtain ⟨sol, solved, -, -, hin, -⟩ := relay_solved
  obtain ⟨k, computed, hsolve⟩ := analyse_eq_ok.mp solved
  have hb : ⟨2⟩ ∈ relay.blocks := by decide
  obtain ⟨-, within⟩ := available_within_reaching relayEdits computed hb
  obtain ⟨availIn, -, reachIn, -, hai, -, hri, -, subset, -⟩ := within _ sol hsolve
  obtain rfl := Option.some.inj (hin.symm.trans hai)
  exact ⟨k, sol, computed, hb, hsolve, _, reachIn, hai, hri, by decide, subset⟩

end MemFlow

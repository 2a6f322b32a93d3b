import MemFlow.Proofs.LocalSets

/-!
# How many sweeps a run makes

A run keeps its visits, and its counts are read off that record. Sweeping under a
limit makes the sweeps that it would make without one, up to the limit. The last of
them only confirms that nothing changes any more, so a limit is reached exactly if it
is smaller than their number. Each of them visits the blocks in the order, which has
every block once (`length_flatten_sweeps`, `DenseGraph.length_order`). The worklist
visits every block at least once, whether it takes over or runs alone.
-/

namespace MemFlow

/-- What sweeping the blocks of a graph under a limit reports, if `needed` sweeps are made
without one. -/
structure Run.Honours {n : Nat} (run : Run n) (blocks limit needed : Nat) : Prop where
  sweepCount_eq : run.sweepCount = min limit needed
  fellBack_iff : run.fellBack = true ↔ limit < needed
  visitCount_within : needed ≤ limit → run.visitCount = blocks * needed
  visitCount_beyond : limit < needed → blocks * (limit + 1) ≤ run.visitCount

/-- What the worklist reports if it runs alone. -/
structure Run.OnlyWorklist {n : Nat} (run : Run n) (blocks : Nat) : Prop where
  sweepCount_eq : run.sweepCount = 0
  fellBack_eq : run.fellBack = false
  le_visitCount : blocks ≤ run.visitCount

namespace Equations

variable {n : Nat} {eq : Equations n} {shape : Shape n} {order : List (Fin n)}
  {outs final : Vector IdSet n}

/-! ## Visits of the worklist -/

theorem length_le_enqueue (queue bs : List (Fin n)) :
    queue.length ≤ (enqueue queue bs).length := by
  unfold enqueue
  induction bs generalizing queue with
  | nil => exact Nat.le_refl _
  | cons b bs ih =>
    rw [List.foldl_cons]
    apply Nat.le_trans _ (ih _)
    by_cases waits : b ∈ queue
    · rw [if_pos waits]
    · rw [if_neg waits, List.length_append]
      omega

theorem length_le_queueAfter (eq : Equations n) (shape : Shape n) (b : Fin n)
    (queue : List (Fin n)) (outs : Vector IdSet n) :
    queue.length ≤ (eq.queueAfter shape b queue outs).length := by
  unfold queueAfter
  split
  · exact length_le_enqueue queue _
  · exact Nat.le_refl _

/-- A block leaves the queue only by being visited. -/
theorem length_le_visits {queue : List (Fin n)} {visits : List (Visit n)}
    (h : Drains eq shape queue outs visits final) : queue.length ≤ visits.length := by
  induction h with
  | done => exact Nat.le_refl _
  | @visit b queue outs final visits _ ih =>
    have grows := length_le_queueAfter eq shape b queue outs
    rw [List.length_cons, List.length_cons]
    omega

theorem le_length_worklist (hg : eq.Grounded) (h : Reached eq shape outs) :
    n ≤ (eq.worklist shape outs).2.length := by
  have visited := length_le_visits (drains_worklist hg h)
  rwa [List.length_finRange] at visited

theorem onlyWorklist_solveByWorklist (hg : eq.Grounded) :
    (eq.solveByWorklist shape).run.OnlyWorklist n := by
  refine ⟨rfl, rfl, ?_⟩
  have visited : n ≤ (eq.worklist shape (eq.start shape)).2.length := le_length_worklist hg .start
  simp only [solveByWorklist_eq, Run.visitCount, List.flatten_nil, List.length_nil]
  omega

/-! ## Sweeps under a limit -/

/-- If sweeps settle within some bound, then within any other bound there are as many
of them as it allows, and they settle exactly if it allows all. -/
theorem sweepUpTo_limited {bound : Nat}
    (h : (eq.sweepUpTo shape order bound outs).settled = true) (limit : Nat) :
    let needed := (eq.sweepUpTo shape order bound outs).sweeps.length
    (eq.sweepUpTo shape order limit outs).sweeps.length = min limit needed ∧
      ((eq.sweepUpTo shape order limit outs).settled = true ↔ needed ≤ limit) := by
  induction bound generalizing outs limit with
  | zero => cases h
  | succ bound ih =>
    by_cases quiet : eq.Quiet shape order outs
    · rw [sweepUpTo_quiet bound quiet]
      cases limit with
      | zero => simp [sweepUpTo]
      | succ limit => simp [sweepUpTo_quiet limit quiet]
    · rw [sweepUpTo_again bound quiet] at h ⊢
      cases limit with
      | zero => simp [sweepUpTo]
      | succ limit =>
        obtain ⟨count, settled⟩ := ih h limit
        rw [sweepUpTo_again limit quiet]
        simp only [List.length_cons, Nat.add_le_add_iff_right]
        exact ⟨by omega, settled⟩

/-- Every sweep goes through the whole order. -/
theorem map_block_of_mem_sweeps {bound : Nat} {visits : List (Visit n)}
    (h : visits ∈ (eq.sweepUpTo shape order bound outs).sweeps) :
    visits.map (·.block) = order := by
  induction bound generalizing outs with
  | zero => cases h
  | succ bound ih =>
    by_cases quiet : eq.Quiet shape order outs
    · rw [sweepUpTo_quiet bound quiet] at h
      rw [List.mem_singleton.mp h]
      exact map_block_sweep order outs
    · rw [sweepUpTo_again bound quiet] at h
      rcases List.mem_cons.mp h with rfl | later
      · exact map_block_sweep order outs
      · exact ih later

/-- There are as many visits as sweeps times blocks in the order. -/
theorem length_flatten_sweeps (bound : Nat) :
    (eq.sweepUpTo shape order bound outs).sweeps.flatten.length =
      (eq.sweepUpTo shape order bound outs).sweeps.length * order.length := by
  rw [List.length_flatten]
  have lengths : ∀ m ∈ (eq.sweepUpTo shape order bound outs).sweeps.map List.length,
      m = order.length := by
    intro m hm
    obtain ⟨visits, hv, rfl⟩ := List.mem_map.mp hm
    rw [← map_block_of_mem_sweeps hv, List.length_map]
  rw [List.eq_replicate_of_mem lengths, List.sum_replicate_nat, List.length_map]

theorem run_of_settled (limit : Option Nat)
    (h : (eq.sweepUpTo shape order (limit.getD (eq.capacity + 1)) (eq.start shape)).settled =
      true) :
    (eq.solveBySweeps shape order limit).run = { sweeps :=
      (eq.sweepUpTo shape order (limit.getD (eq.capacity + 1)) (eq.start shape)).sweeps } :=
  congrArg Fixpoint.run (if_pos h)

theorem run_of_unsettled {limit : Nat}
    (h : ¬ (eq.sweepUpTo shape order limit (eq.start shape)).settled = true) :
    (eq.solveBySweeps shape order (some limit)).run = {
      sweeps := (eq.sweepUpTo shape order limit (eq.start shape)).sweeps
      visits := (eq.worklist shape (eq.sweepUpTo shape order limit (eq.start shape)).outs).2
      fellBack := true } :=
  congrArg Fixpoint.run (if_neg h)

/-- **A limit cuts sweeping short and does nothing else.** -/
theorem honours_solveBySweeps (hg : eq.Grounded) (shape : Shape n) (full : order.length = n)
    (limit : Nat) :
    (eq.solveBySweeps shape order (some limit)).run.Honours n limit
      (eq.solveBySweeps shape order none).run.sweepCount := by
  have settles := settled_without_limit hg shape order
  obtain ⟨count, settled_iff⟩ := sweepUpTo_limited settles limit
  have unlimited : (eq.solveBySweeps shape order none).run =
      { sweeps := (eq.sweepUpTo shape order (eq.capacity + 1) (eq.start shape)).sweeps } :=
    run_of_settled none settles
  rw [unlimited]
  by_cases settled : (eq.sweepUpTo shape order limit (eq.start shape)).settled = true
  · have within := settled_iff.mp settled
    have limited : (eq.solveBySweeps shape order (some limit)).run =
        { sweeps := (eq.sweepUpTo shape order limit (eq.start shape)).sweeps } :=
      run_of_settled (some limit) settled
    rw [limited]
    refine ⟨count, ?_, ?_, ?_⟩
    · simp only [Bool.false_eq_true, false_iff]
      exact Nat.not_lt.mpr within
    · intro _
      rw [Run.visitCount, length_flatten_sweeps, full, count, Nat.min_eq_right within, Nat.mul_comm]
      rfl
    · intro beyond
      exact absurd within (Nat.not_le.mpr beyond)
  · have beyond := Nat.lt_of_not_le fun within => settled (settled_iff.mpr within)
    have reached : Reached eq shape (eq.sweepUpTo shape order limit (eq.start shape)).outs :=
      sweepUpTo_reached .start
    have visited := le_length_worklist hg reached
    rw [run_of_unsettled settled]
    refine ⟨count, ?_, ?_, ?_⟩
    · simp only [true_iff]
      exact beyond
    · intro within
      exact absurd within (Nat.not_le.mpr beyond)
    · intro _
      rw [Run.visitCount, length_flatten_sweeps, full, count, Nat.min_eq_left (Nat.le_of_lt beyond),
        Nat.mul_succ, Nat.mul_comm n limit]
      exact Nat.add_le_add_left visited _

end Equations

namespace DenseGraph

variable {g : FlowGraph} {d : DenseGraph} {order : List (Fin d.size)}

theorem order_perm (h : ofFlowGraph g = .ok d) (ho : d.rpo = .ok order) : g.rpo.Perm g.blocks := by
  obtain ⟨wf, entry, -, rfl⟩ := ofFlowGraph_cases h
  exact ((FlowGraph.denseOrder_ok_iff wf.nodup).mp ⟨order, ho⟩).1

/-- An order that can be used has as many blocks as the graph. -/
theorem length_order (h : ofFlowGraph g = .ok d) (ho : d.rpo = .ok order) :
    order.length = d.size := by
  have describes := describes_of_accepted h
  calc order.length
    _ = g.rpo.length := by rw [← describes.order_eq order ho, List.length_map]
    _ = g.blocks.length := (order_perm h ho).length_eq
    _ = d.size := by rw [← describes.blocks_eq]

end DenseGraph

/-! ## The problems of an analysis -/

variable {g : FlowGraph} {r : Registry} {options : Options} {k : BlockEffects}

namespace BlockEffects

/-- Blocks generate nothing that their problem does not range over. -/
theorem grounded_equations (h : compute g r options = .ok k) (wf : r.WellFormed) (p : Problem) :
    (k.equations p).Grounded := by
  obtain ⟨entry, inv, effects, -, -, hinv, heff, rfl⟩ := compute_cases h
  have within (i : Fin g.blocks.length) : (effects.get i).Within inv := by
    have stmts : ∀ s ∈ g.stmts (g.blocks.get i), s ∈ g.allStmts := fun s hs =>
      List.mem_flatMap.mpr ⟨_, List.get_mem _ i, hs⟩
    exact ((Effect.describes_get hinv wf heff i).matches hinv wf stmts).within hinv stmts
  intro inter i
  cases p with
  | reach => cases inter
  | liveIn => cases inter
  | availReach =>
    simp only [equations, get_eq, Vector.getElem_ofFn]
    exact (within i).mustGen
  | availExpr =>
    simp only [equations, get_eq, Vector.getElem_ofFn]
    exact (within i).genExpr

/-- The effects of blocks do not depend on the limit. -/
theorem compute_limited (h : compute g r options = .ok k) (limit : Option Nat) :
    compute g r { options with sweepLimit := limit } =
      .ok { k with options := { options with sweepLimit := limit } } := by
  obtain ⟨entry, inv, effects, hg, -, hinv, heff, rfl⟩ := compute_cases h
  obtain ⟨k', h'⟩ := compute_ok hg hinv { options with sweepLimit := limit }
  obtain ⟨entry', inv', effects', hg', -, hinv', heff', rfl⟩ := compute_cases h'
  obtain rfl : inv' = inv := Except.ok.inj (hinv'.symm.trans hinv)
  obtain rfl : effects' = effects := by
    apply Vector.toList_inj.mp
    exact Except.ok.inj (heff'.symm.trans heff)
  have same : g.dense entry' = g.dense entry := Except.ok.inj (hg'.symm.trans hg)
  obtain rfl : entry' = entry := by
    injection same with _ shapes
    exact congrArg Shape.entry shapes
  exact h'

theorem options_of_compute (h : compute g r options = .ok k) : k.options = options := by
  obtain ⟨_, _, _, -, -, -, -, rfl⟩ := compute_cases h
  rfl

theorem fixpoint_solvedBy (k : BlockEffects) (strategy : Strategy)
    (solver : Equations k.graph.size → Fixpoint k.graph.size) (p : Problem) :
    (k.solvedBy strategy solver).fixpoint p = solver (k.equations p) := by
  cases p <;> rfl

theorem solve_of_usable {order : List (Fin k.graph.size)} (usable : k.graph.rpo = .ok order) :
    k.solve .reversePostorder = .ok (k.solvedBy .reversePostorder
      (·.solveBySweeps k.graph.shape order k.options.sweepLimit)) := by
  unfold solve
  rw [usable]

theorem usable_of_solve {sol : Solution} (h : k.solve .reversePostorder = .ok sol) :
    ∃ order, k.graph.rpo = .ok order := by
  by_contra unusable
  obtain ⟨e, fails⟩ := solve_reversePostorder_fails.mpr unusable
  rw [h] at fails
  cases fails

theorem honours_solve (h : compute g r options = .ok k) (wf : r.WellFormed)
    (unlimited : options.sweepLimit = none) {full : Solution}
    (hsolve : k.solve .reversePostorder = .ok full) (limit : Nat) :
    ∃ limited, analyse g r { options with sweepLimit := some limit } .reversePostorder =
        .ok limited ∧
      ∀ p, (limited.fixpoint p).run.Honours g.blocks.length limit
        (full.fixpoint p).run.sweepCount := by
  obtain ⟨order, usable⟩ := usable_of_solve hsolve
  rw [solve_of_usable usable, options_of_compute h, unlimited] at hsolve
  cases hsolve
  let cut : BlockEffects := { k with options := { options with sweepLimit := some limit } }
  have solves := solve_of_usable (k := cut) usable
  refine ⟨_, analyse_eq_ok.mpr ⟨cut, compute_limited h (some limit), solves⟩, ?_⟩
  intro p
  rw [fixpoint_solvedBy, fixpoint_solvedBy,
    ← DenseGraph.blocks_ofFlowGraph (accepted_of_compute h)]
  exact Equations.honours_solveBySweeps (grounded_equations h wf p) k.graph.shape
    (DenseGraph.length_order (accepted_of_compute h) usable) limit

end BlockEffects

/-- **The sweep limit is honoured exactly.** Let an analysis succeed that sweeps without a
limit. With any limit it succeeds as well, and for each of the four problems sweeping stops at
the limit or where it stopped before, whichever comes first. The worklist takes over exactly if
the limit is the smaller of the two, zero included, and then visits every block at least once
more; otherwise there are no visits but those of the sweeps. An analysis that uses the worklist
alone reports no sweep and visits every block at least once. -/
theorem sweep_limit_is_honoured (edits : List RegistryEdit) (options : Options) :
    (∀ full, analyse g (Registry.initial.run edits) { options with sweepLimit := none }
        .reversePostorder = .ok full →
      g.rpo.Perm g.blocks ∧
      ∀ limit, ∃ limited,
        analyse g (Registry.initial.run edits) { options with sweepLimit := some limit }
          .reversePostorder = .ok limited ∧
        ∀ p, (limited.fixpoint p).run.Honours g.blocks.length limit
          (full.fixpoint p).run.sweepCount) ∧
    (∀ sol, analyse g (Registry.initial.run edits) options .worklist = .ok sol →
      ∀ p, (sol.fixpoint p).run.OnlyWorklist g.blocks.length) := by
  have wf := Registry.wellFormed_run edits
  constructor
  · intro full solved
    obtain ⟨k, computed, hsolve⟩ := analyse_eq_ok.mp solved
    obtain ⟨order, usable⟩ := BlockEffects.usable_of_solve hsolve
    refine ⟨DenseGraph.order_perm (BlockEffects.accepted_of_compute computed) usable, ?_⟩
    intro limit
    exact BlockEffects.honours_solve computed wf rfl hsolve limit
  · intro sol solved
    obtain ⟨k, computed, hsolve⟩ := analyse_eq_ok.mp solved
    cases hsolve
    intro p
    rw [BlockEffects.fixpoint_solvedBy,
      ← DenseGraph.blocks_ofFlowGraph (BlockEffects.accepted_of_compute computed)]
    exact Equations.onlyWorklist_solveByWorklist (BlockEffects.grounded_equations computed wf p)

/-- From which blocks a block can be entered takes three sweeps here, and definitions, of which
there are none, take one. A limit of two is reached by the first problem alone, one of three by
none. -/
theorem tangle_limited :
    ∃ full, analyse tangle (Registry.initial.run []) {} .reversePostorder = .ok full ∧
      (full.fixpoint .liveIn).run.sweepCount = 3 ∧ (full.fixpoint .reach).run.sweepCount = 1 ∧
      (∃ two, analyse tangle (Registry.initial.run []) { sweepLimit := some 2 }
          .reversePostorder = .ok two ∧
        (two.fixpoint .liveIn).run.sweepCount = 2 ∧ (two.fixpoint .liveIn).run.fellBack = true ∧
        9 ≤ (two.fixpoint .liveIn).run.visitCount ∧ (two.fixpoint .reach).run.sweepCount = 1) ∧
      (∃ three, analyse tangle (Registry.initial.run []) { sweepLimit := some 3 }
          .reversePostorder = .ok three ∧
        ¬ (three.fixpoint .liveIn).run.fellBack = true ∧
        (three.fixpoint .liveIn).run.visitCount = 9) ∧
      ∃ sol, analyse tangle (Registry.initial.run []) {} .worklist = .ok sol ∧
        3 ≤ (sol.fixpoint .liveIn).run.visitCount := by
  obtain ⟨sweeping, working⟩ := sweep_limit_is_honoured (g := tangle) [] {}
  have counts : (analyse tangle (Registry.initial.run []) {} .reversePostorder).toOption.map
      (fun sol => ((sol.fixpoint .liveIn).run.sweepCount, (sol.fixpoint .reach).run.sweepCount)) =
      some (3, 1) := by
    decide +kernel
  obtain ⟨full, solved, counts⟩ := exists_solution counts
  obtain ⟨live, reach⟩ := Prod.mk.inj counts
  obtain ⟨-, honours⟩ := sweeping full solved
  refine ⟨full, solved, live, reach, ?_, ?_, ?_⟩
  · obtain ⟨two, limited, reports⟩ := honours 2
    have entered := reports .liveIn
    have reached := reports .reach
    rw [live] at entered
    rw [reach] at reached
    exact ⟨two, limited, entered.sweepCount_eq, entered.fellBack_iff.mpr (by decide),
      entered.visitCount_beyond (by decide), reached.sweepCount_eq⟩
  · obtain ⟨three, limited, reports⟩ := honours 3
    have entered := reports .liveIn
    rw [live] at entered
    exact ⟨three, limited, fun back => absurd (entered.fellBack_iff.mp back) (by decide),
      entered.visitCount_within (by decide)⟩
  · obtain ⟨k, computed, -⟩ := analyse_eq_ok.mp solved
    obtain ⟨sol, worked⟩ := k.solve_worklist_ok
    have answered := analyse_eq_ok.mpr ⟨k, computed, worked⟩
    exact ⟨sol, answered, (working sol answered .liveIn).le_visitCount⟩

end MemFlow

import MemFlow.Graph.Table
import MemFlow.Proofs.Drivers

/-!
# What the drivers solve

A solution of the equations is stated block by block, with no order of visits in
it. Among all solutions the drivers find the least for a union and the greatest
for an intersection.
-/

namespace MemFlow

namespace Equations

variable {n : Nat} {eq : Equations n} {shape : Shape n}

/-- Every out is what the block generates with what comes in and is not killed,
and every in joins the outs of the predecessors; nothing is available where the
entry is entered. -/
structure IsSolution (eq : Equations n) (shape : Shape n) (ins outs : Vector IdSet n) : Prop where
  out_eq : ∀ (b : Fin n) (v : Nat),
    v ∈ outs.get b ↔ v ∈ eq.gen.get b ∨ (v ∈ ins.get b ∧ v ∉ eq.kill.get b)
  in_eq : ∀ (b : Fin n) (v : Nat), v ∈ ins.get b ↔
    match eq.confluence with
    | .union => ∃ p ∈ shape.preds.get b, v ∈ outs.get p
    | .inter => b ≠ shape.entry ∧ ∀ p ∈ shape.preds.get b, v ∈ outs.get p

theorem mem_joined_iff (hs : shape.Sound) (outs : Vector IdSet n) (b : Fin n) (v : Nat) :
    v ∈ eq.joined shape (view outs) b ↔
      match eq.confluence with
      | .union => ∃ p ∈ shape.preds.get b, v ∈ outs.get p
      | .inter => b ≠ shape.entry ∧ ∀ p ∈ shape.preds.get b, v ∈ outs.get p := by
  unfold joined
  cases eq.confluence with
  | union => exact Iff.rfl
  | inter =>
    constructor
    · rintro ⟨hb, -, hv⟩
      exact ⟨hb, hv⟩
    · rintro ⟨hb, hv⟩
      exact ⟨hb, hs.preds_ne_nil hb, hv⟩

theorem joined_of_solution (hs : shape.Sound) {ins outs : Vector IdSet n}
    (h : eq.IsSolution shape ins outs) (b : Fin n) :
    eq.joined shape (view outs) b = view ins b := by
  ext v
  rw [mem_joined_iff hs]
  exact (h.in_eq b v).symm

theorem image_of_solution (hs : shape.Sound) {ins outs : Vector IdSet n}
    (h : eq.IsSolution shape ins outs) (b : Fin n) :
    eq.image shape (view outs) b = view outs b := by
  ext v
  rw [image, joined_of_solution hs h]
  exact (h.out_eq b v).symm

theorem image_of_settled {outs : Vector IdSet n} (h : ∀ b, eq.Settled shape outs b) (b : Fin n) :
    eq.image shape (view outs) b = view outs b := by
  rw [← members_renewed, h b]
  rfl

def insOf (eq : Equations n) (shape : Shape n) (outs : Vector IdSet n) : Vector IdSet n :=
  Vector.ofFn fun b => eq.incoming shape b outs

theorem members_insOf (outs : Vector IdSet n) (b : Fin n) :
    ((eq.insOf shape outs).get b).members = eq.joined shape (view outs) b := by
  rw [← members_incoming, insOf, get_eq, Vector.getElem_ofFn]

theorem solution_of_settled (hs : shape.Sound) {outs : Vector IdSet n}
    (h : ∀ b, eq.Settled shape outs b) : eq.IsSolution shape (eq.insOf shape outs) outs := by
  constructor
  · intro b v
    have hv : v ∈ view outs b ↔ v ∈ eq.image shape (view outs) b := by rw [image_of_settled h]
    rw [image, ← members_insOf] at hv
    exact hv
  · intro b v
    rw [← IdSet.mem_members_iff, members_insOf]
    exact mem_joined_iff hs outs b v

/-- Outs that refreshes lead to come before all solutions, on the way that outs
move. -/
theorem reached_extremal (hs : shape.Sound) (hg : eq.Grounded) {outs : Vector IdSet n}
    (h : Reached eq shape outs) {ins' outs' : Vector IdSet n}
    (h' : eq.IsSolution shape ins' outs') (b : Fin n) :
    eq.confluence.Toward (outs.get b).members (outs'.get b).members := by
  refine reached_toward hs hg h (X := view outs') ?_ b
  intro c
  rw [image_of_solution hs h']
  exact Confluence.toward_refl _ _

/-- **There is one place where refreshes end.** -/
theorem settled_unique (hs : shape.Sound) (hg : eq.Grounded) {outs outs' : Vector IdSet n}
    (h : Reached eq shape outs) (h' : Reached eq shape outs')
    (hse : ∀ b, eq.Settled shape outs b) (hse' : ∀ b, eq.Settled shape outs' b) :
    outs = outs' := by
  apply eq_of_view
  intro b
  have forward := reached_extremal hs hg h (solution_of_settled hs hse') b
  have backward := reached_extremal hs hg h' (solution_of_settled hs hse) b
  exact forward.antisymm backward

/-! ## The drivers' answers -/

/-- The outs on which the worklist settles. -/
def fixed (eq : Equations n) (shape : Shape n) : Vector IdSet n :=
  (eq.worklist shape (eq.start shape)).1

theorem fixed_reached (hg : eq.Grounded) : Reached eq shape (eq.fixed shape) :=
  drains_reached (drains_worklist hg .start) .start

theorem fixed_settled (hs : shape.Sound) (hg : eq.Grounded) (b : Fin n) :
    eq.Settled shape (eq.fixed shape) b :=
  drains_settled hs (drains_worklist hg .start) (fun c hc => absurd (List.mem_finRange c) hc) b

theorem solveByWorklist_eq : eq.solveByWorklist shape =
    ⟨eq.insOf shape (eq.fixed shape), eq.fixed shape,
      { visits := (eq.worklist shape (eq.start shape)).2 }⟩ := rfl

theorem sweeps_solveBySweeps (shape : Shape n) (hg : eq.Grounded) (order : List (Fin n))
    (limit : Option Nat) :
    ∃ run outs, Sweeps eq shape order limit (eq.start shape) run outs ∧
      eq.solveBySweeps shape order limit = ⟨eq.insOf shape outs, outs, run⟩ := by
  let k := limit.getD (eq.capacity + 1)
  have hk : limit = none ∨ limit = some k := by
    cases limit with
    | none => exact Or.inl rfl
    | some m => exact Or.inr rfl
  cases settled : (eq.sweepUpTo shape order k (eq.start shape)).settled with
  | true =>
    exact ⟨_, _, sweeps_of_settled settled hk, if_pos settled⟩
  | false =>
    have limited : limit = some k := by
      rcases hk with rfl | hk
      · have settles := settled_without_limit hg shape order
        exact absurd (settles.symm.trans settled) (by simp)
      · exact hk
    rw [limited]
    exact ⟨_, _, sweeps_of_unsettled settled (drains_worklist hg (sweepUpTo_reached .start)),
      if_neg (by simp [settled])⟩

theorem sweeps_fixed (hs : shape.Sound) (hg : eq.Grounded) {order : List (Fin n)}
    (cover : ∀ b, b ∈ order) (limit : Option Nat) :
    ∃ run, eq.Sweeps shape order limit (eq.start shape) run (eq.fixed shape) ∧
      eq.solveBySweeps shape order limit =
        ⟨eq.insOf shape (eq.fixed shape), eq.fixed shape, run⟩ := by
  obtain ⟨run, outs, swept, answer⟩ := sweeps_solveBySweeps shape hg order limit
  have same : outs = eq.fixed shape :=
    settled_unique hs hg (sweeps_reached swept .start) (fixed_reached hg)
      (sweeps_settled hs cover swept) (fixed_settled hs hg)
  subst same
  exact ⟨run, swept, answer⟩

/-- **Every driver ends, and with the same solution.** On a graph that was
accepted, the worklist and, where the reverse postorder can be used, sweeping
under any limit go through the loops `Drains` and `Sweeps` to their end. All of
them answer one `outs` and one `ins`: the least solution for a union and the
greatest for an intersection. -/
theorem drivers_find_extremal_solution {g : FlowGraph} {d : DenseGraph}
    (h : DenseGraph.ofFlowGraph g = .ok d) (eq : Equations d.size) (hg : eq.Grounded) :
    ∃ ins outs : Vector IdSet d.size,
      (∃ visits, eq.Drains d.shape (List.finRange d.size) (eq.start d.shape) visits outs ∧
        eq.solveByWorklist d.shape = ⟨ins, outs, { visits }⟩) ∧
      (∀ order, d.rpo = .ok order → ∀ limit, ∃ run,
        eq.Sweeps d.shape order limit (eq.start d.shape) run outs ∧
        eq.solveBySweeps d.shape order limit = ⟨ins, outs, run⟩) ∧
      eq.IsSolution d.shape ins outs ∧
      ∀ ins' outs', eq.IsSolution d.shape ins' outs' → ∀ b : Fin d.size,
        match eq.confluence with
        | .union => outs.get b ⊆ outs'.get b
        | .inter => outs'.get b ⊆ outs.get b := by
  have hs := DenseGraph.sound_of_accepted h
  refine ⟨eq.insOf d.shape (eq.fixed d.shape), eq.fixed d.shape,
    ⟨_, drains_worklist hg .start, solveByWorklist_eq⟩, ?_,
    solution_of_settled hs (fixed_settled hs hg), ?_⟩
  · intro order ho limit
    exact sweeps_fixed hs hg (DenseGraph.mem_order h ho) limit
  · intro ins' outs' h' b
    have toward := reached_extremal hs hg (fixed_reached hg) h' b
    cases hc : eq.confluence <;> simp only [hc, Confluence.Toward] at toward <;> exact toward

end Equations

/-- Two blocks that enter each other's loop, with a repeated edge, a self loop
and an edge back to the entry. -/
def tangle : FlowGraph := GraphTable.toFlowGraph {
  entry := ⟨4⟩, blocks := [⟨9⟩, ⟨4⟩, ⟨7⟩], rpo := [⟨4⟩, ⟨7⟩, ⟨9⟩]
  preds := [(⟨9⟩, [⟨4⟩, ⟨7⟩, ⟨9⟩]), (⟨4⟩, [⟨9⟩]), (⟨7⟩, [⟨4⟩, ⟨4⟩, ⟨9⟩])]
  succs := [(⟨9⟩, [⟨9⟩, ⟨7⟩, ⟨4⟩]), (⟨4⟩, [⟨7⟩, ⟨9⟩, ⟨7⟩]), (⟨7⟩, [⟨9⟩])] }

def tangleDense : DenseGraph :=
  ⟨tangle.blocks, tangle.denseShape ⟨1, by decide⟩, tangle.denseOrder⟩

def tangleProblem : Equations tangleDense.size where
  confluence := .inter
  gen := #v[.ofList [1], .ofList [1, 2], .ofList [3]]
  kill := #v[.ofList [2, 3], .ofList [3], .ofList [3]]
  domain := .ofList [1, 2, 3]

def tangleOrder : List (Fin tangleDense.size) :=
  [⟨1, by decide⟩, ⟨2, by decide⟩, ⟨0, by decide⟩]

theorem tangle_accepted : DenseGraph.ofFlowGraph tangle = .ok tangleDense := by rfl

theorem tangle_grounded : tangleProblem.Grounded := by
  intro _ b
  rw [← IdSet.isSubset_iff]
  revert b
  decide

theorem tangle_solved_alike :
    DenseGraph.ofFlowGraph tangle = .ok tangleDense ∧ tangleProblem.Grounded ∧
    tangleDense.rpo = .ok tangleOrder ∧ ∀ limit,
      (tangleProblem.solveBySweeps tangleDense.shape tangleOrder limit).outs =
        (tangleProblem.solveByWorklist tangleDense.shape).outs := by
  have order : tangleDense.rpo = .ok tangleOrder := by rfl
  refine ⟨tangle_accepted, tangle_grounded, order, ?_⟩
  intro limit
  obtain ⟨ins, outs, ⟨visits, -, worklist⟩, sweeps, -⟩ :=
    Equations.drivers_find_extremal_solution tangle_accepted tangleProblem tangle_grounded
  obtain ⟨run, -, swept⟩ := sweeps _ order limit
  rw [swept, worklist]

end MemFlow

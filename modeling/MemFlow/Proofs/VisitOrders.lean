import MemFlow.Proofs.Solutions

/-!
# Any order of visits

The equations ask for no order in which blocks are visited. Let any blocks be
brought up to date one after the other, some again and again and some never. Every
visit moves one out at most, and only the way that outs move (`moves_refresh`). No
visit goes past a solution, and only so many visits change anything. Where no visit
would change anything any more the outs are a solution (`quiet_iff_solution`), and it
is the one that every driver answers (`answer_of_solution`).
-/

namespace MemFlow

/-- What the drivers answer over a validated graph: the worklist always, and sweeping
under any limit if the reverse postorder can be used. -/
inductive DenseGraph.DriverAnswer (d : DenseGraph) (eq : Equations d.size) :
    Fixpoint d.size → Prop
  | worklist : DriverAnswer d eq (eq.solveByWorklist d.shape)
  | sweeps {order : List (Fin d.size)} (usable : d.rpo = .ok order) (limit : Option Nat) :
      DriverAnswer d eq (eq.solveBySweeps d.shape order limit)

namespace Equations

variable {n : Nat} {eq : Equations n} {shape : Shape n} {outs : Vector IdSet n}

/-! ## One visit -/

/-- How a visit to a block leaves the outs, and what it answers. -/
structure Moves (eq : Equations n) (b : Fin n) (outs : Vector IdSet n)
    (visited : Vector IdSet n × Bool) : Prop where
  /-- The block's out grows for a union and shrinks for an intersection. -/
  toward : eq.confluence.Toward (outs.get b).members (visited.1.get b).members
  others : ∀ c, c ≠ b → visited.1.get c = outs.get c
  changed_iff : visited.2 = true ↔ visited.1.get b ≠ outs.get b

theorem moves_refresh (hg : eq.Grounded) (h : Reached eq shape outs) (b : Fin n) :
    eq.Moves b outs (eq.refresh shape b outs) := by
  refine ⟨refresh_toward (reached_rising hg h) b b, ?_, ?_⟩
  · intro c other
    rw [get_refresh, if_neg other]
  · rw [get_refresh, if_pos rfl]
    rcases refresh_cases eq shape outs b with ⟨same, hr⟩ | ⟨differs, hr⟩
    · simp [hr, same]
    · simp [hr, differs]

/-! ## Any number of visits -/

/-- However many visits there are, those that change an out are bounded. -/
theorem changes_le_capacity (hg : eq.Grounded) (shape : Shape n) (visits : List (Fin n)) :
    (Visit.changedBlocks (eq.sweep shape visits (eq.start shape)).2).length ≤ eq.capacity :=
  calc (Visit.changedBlocks (eq.sweep shape visits (eq.start shape)).2).length
    _ ≤ eq.room (eq.start shape) :=
      Nat.le_of_add_right_le (changes_add_room_le hg visits .start)
    _ ≤ eq.capacity := room_le_capacity .start

/-! ## Where visits end -/

theorem ins_of_solution (hs : shape.Sound) {ins : Vector IdSet n}
    (h : eq.IsSolution shape ins outs) : ins = eq.insOf shape outs := by
  apply eq_of_view
  intro b
  rw [← joined_of_solution hs h b]
  exact (members_insOf outs b).symm

theorem settled_of_solution (hs : shape.Sound) {ins : Vector IdSet n}
    (h : eq.IsSolution shape ins outs) (b : Fin n) : eq.Settled shape outs b := by
  apply IdSet.ext_mem
  intro v
  rw [← IdSet.mem_members_iff, members_renewed, image_of_solution hs h]
  rfl

theorem quiet_iff_solution (hs : shape.Sound) :
    (∀ b, (eq.refresh shape b outs).2 = false) ↔ ∃ ins, eq.IsSolution shape ins outs := by
  constructor
  · intro quiet
    exact ⟨_, solution_of_settled hs fun b => refresh_false_iff.mp (quiet b)⟩
  · rintro ⟨ins, solution⟩ b
    exact refresh_false_iff.mpr (settled_of_solution hs solution b)

/-- Every driver answers the solution that visits lead to. -/
theorem answer_of_solution {g : FlowGraph} {d : DenseGraph}
    (h : DenseGraph.ofFlowGraph g = .ok d) {eq : Equations d.size} (hg : eq.Grounded)
    {ins outs : Vector IdSet d.size} (reached : Reached eq d.shape outs)
    (solution : eq.IsSolution d.shape ins outs) {answer : Fixpoint d.size}
    (answered : d.DriverAnswer eq answer) : answer = ⟨ins, outs, answer.run⟩ := by
  have hs := DenseGraph.sound_of_accepted h
  -- The drivers visit in orders of their own, and refreshes have one place to end.
  have same : outs = eq.fixed d.shape :=
    settled_unique hs hg reached (fixed_reached hg) (settled_of_solution hs solution)
      (fixed_settled hs hg)
  rw [ins_of_solution hs solution, same]
  cases answered with
  | worklist => rfl
  | sweeps usable limit =>
    obtain ⟨run, -, answer⟩ := sweeps_fixed hs hg (DenseGraph.mem_order h usable) limit
    rw [answer]

end Equations

/-- **Any order of visits is safe.** Over an accepted graph, bring any blocks up to date
from the start, one after the other. At any point, with `outs` the outs so far and
`changed` the visits so far that changed something, a visit to any block moves the out of
that block the way outs move, leaves the others alone and answers whether there was a
change. The outs lie below every solution for a union and above every solution for an
intersection. There are at most as many changes as blocks times ids, those of the domain
and all that is generated. And no visit would change anything exactly if the outs are a
solution, with its ins the one that all drivers answer. -/
theorem any_order_is_safe {g : FlowGraph} {d : DenseGraph}
    (h : DenseGraph.ofFlowGraph g = .ok d) (eq : Equations d.size) (hg : eq.Grounded)
    (visits : List (Fin d.size)) :
    let outs := (eq.sweep d.shape visits (eq.start d.shape)).1
    let changed := Visit.changedBlocks (eq.sweep d.shape visits (eq.start d.shape)).2
    (∀ b, eq.Moves b outs (eq.refresh d.shape b outs)) ∧
    (∀ ins' outs', eq.IsSolution d.shape ins' outs' → ∀ b,
      eq.confluence.Toward (outs.get b).members (outs'.get b).members) ∧
    changed.length ≤ d.size * eq.ids.size ∧
    ((∀ b, (eq.refresh d.shape b outs).2 = false) ↔
      ∃ ins, eq.IsSolution d.shape ins outs ∧
        ∀ answer, d.DriverAnswer eq answer → answer = ⟨ins, outs, answer.run⟩) := by
  intro outs changed
  have hs := DenseGraph.sound_of_accepted h
  have reached : eq.Reached d.shape outs := Equations.sweep_reached .start
  refine ⟨Equations.moves_refresh hg reached, ?_, Equations.changes_le_capacity hg d.shape visits,
    ?_⟩
  · intro ins' outs' solution b
    exact Equations.reached_extremal hs hg reached solution b
  · rw [Equations.quiet_iff_solution hs]
    constructor
    · rintro ⟨ins, solution⟩
      exact ⟨ins, solution, fun _ => Equations.answer_of_solution h hg reached solution⟩
    · rintro ⟨ins, solution, -⟩
      exact ⟨ins, solution⟩

/-- Every block but the entry, twice. -/
def tangleVisits : List (Fin tangleDense.size) := tangleOrder.tail ++ tangleOrder.tail

/-- The first of the four visits comes too early to change anything and the last too late,
so the blocks change in the opposite order. Still the visits end where the drivers do. -/
theorem tangle_any_order :
    DenseGraph.ofFlowGraph tangle = .ok tangleDense ∧ tangleProblem.Grounded ∧
    tangleDense.rpo = .ok tangleOrder ∧
    let outs := (tangleProblem.sweep tangleDense.shape tangleVisits
      (tangleProblem.start tangleDense.shape)).1
    let changed := Visit.changedBlocks (tangleProblem.sweep tangleDense.shape tangleVisits
      (tangleProblem.start tangleDense.shape)).2
    changed = tangleOrder.tail.reverse ∧ changed.length ≤ 9 ∧
    (∃ ins, tangleProblem.IsSolution tangleDense.shape ins outs) ∧
    (tangleProblem.solveByWorklist tangleDense.shape).outs = outs ∧
    ∀ limit, (tangleProblem.solveBySweeps tangleDense.shape tangleOrder limit).outs = outs := by
  have order : tangleDense.rpo = .ok tangleOrder := by rfl
  have ids : tangleDense.size * tangleProblem.ids.size = 9 := by decide
  obtain ⟨-, -, few, quiet_iff⟩ :=
    any_order_is_safe tangle_accepted tangleProblem tangle_grounded tangleVisits
  obtain ⟨ins, solution, answers⟩ := quiet_iff.mp (by decide)
  rw [ids] at few
  refine ⟨tangle_accepted, tangle_grounded, order, by decide, few, ⟨ins, solution⟩, ?_, ?_⟩
  · exact congrArg Fixpoint.outs (answers _ .worklist)
  · intro limit
    exact congrArg Fixpoint.outs (answers _ (.sweeps order limit))

end MemFlow

import MemFlow.Proofs.Executions
import MemFlow.Proofs.PathExactness

/-!
# Last writers and reaching definitions

Whether the statement that wrote a byte last is among the definitions that reach
a block. For a statement with one kind of write it always is. A statement that
writes one location for certain and others possibly is given up as soon as its
certain write is overwritten, even where a byte of the others is still its own;
when every such statement reaches the block in some other way is exactly when no
last writer is missed.
-/

namespace MemFlow

namespace FlowGraph

/-- The bytes a statement may write beside those it writes for certain. -/
def sideBytes (g : FlowGraph) {r : Registry} (l : Layout r) (d : StmtId) : Set Byte :=
  {x | g.IsCertain d ∧ x ∈ g.possibleBytes l d ∧ x ∉ g.certainBytes l d}

/-- Whatever may be the last to write a byte beside its certain write, on some
path from the entry to the block, reaches the block. -/
def SideWritesReach (g : FlowGraph) {r : Registry} (l : Layout r) (b : BlockId) : Prop :=
  ∀ qs pre d post, g.IsRun (qs ++ [b]) → g.along qs = pre ++ d :: post →
    ∀ x ∈ g.sideBytes l d, (∀ s ∈ post, x ∉ g.certainBytes l s) → g.ReachesIn r d b

variable {g : FlowGraph} {r : Registry} {l : Layout r} {qs : List BlockId} {b : BlockId}
  {d : StmtId} {x : Byte}

/-! ## From executions to statements -/

/-- A last writer may write the byte where it stands, and no later statement
writes it for certain. -/
theorem Executes.lastWriter {trace : List (StmtId × Set Byte)} (h : g.Executes l qs trace)
    (last : LastWriter trace x d) : ∃ pre post, g.along qs = pre ++ d :: post ∧
      g.Writes d ∧ x ∈ g.certainBytes l d ∪ g.possibleBytes l d ∧
      ∀ s ∈ post, x ∉ g.certainBytes l s := by
  obtain ⟨pre, w, post, rfl, hx, later⟩ := last
  obtain ⟨order, performs⟩ := h
  have here : g.Performs l d w := performs (d, w) (by simp)
  refine ⟨pre.map (·.1), post.map (·.1), ?_, here.writes hx, here.2 hx, ?_⟩
  · rw [← order]
    simp
  · intro s hs hc
    obtain ⟨p, hp, rfl⟩ := List.mem_map.mp hs
    have wrote : g.Performs l p.1 p.2 := performs p (by simp [hp])
    exact later p hp (wrote.1 hc)

/-- Where a statement may write a byte and no later statement writes it for
certain, some execution has it as the last writer. -/
theorem exists_lastWriter {pre post : List StmtId} (hqs : g.along qs = pre ++ d :: post)
    (hx : x ∈ g.possibleBytes l d) (later : ∀ s ∈ post, x ∉ g.certainBytes l s) :
    ∃ trace, g.Executes l qs trace ∧ LastWriter trace x d := by
  -- Every statement writes what it has to, and `d` writes the byte as well.
  let quiet (s : StmtId) : StmtId × Set Byte := (s, g.certainBytes l s)
  refine ⟨pre.map quiet ++ (d, g.certainBytes l d ∪ {x}) :: post.map quiet, ⟨?_, ?_⟩, ?_⟩
  · simp [quiet, hqs, Function.comp_def]
  · intro p hp
    rcases List.mem_append.mp hp with hp | hp
    · obtain ⟨s, -, rfl⟩ := List.mem_map.mp hp
      exact performs_certainBytes l s
    · rcases List.mem_cons.mp hp with rfl | hp
      · refine ⟨Set.subset_union_left, Set.union_subset Set.subset_union_left ?_⟩
        exact Set.singleton_subset_iff.mpr (Or.inr hx)
      · obtain ⟨s, -, rfl⟩ := List.mem_map.mp hp
        exact performs_certainBytes l s
  · refine ⟨_, _, _, rfl, Or.inr rfl, ?_⟩
    intro p hp
    obtain ⟨s, hs, rfl⟩ := List.mem_map.mp hp
    exact later s hs

theorem survives_of_not_sideBytes (wf : r.WellFormed) {pre post : List StmtId}
    (hqs : g.along qs = pre ++ d :: post)
    (hx : x ∈ g.certainBytes l d ∪ g.possibleBytes l d) (side : x ∉ g.sideBytes l d)
    (later : ∀ s ∈ post, x ∉ g.certainBytes l s) :
    Survives (g.MustKills r) d (g.along qs) := by
  refine ⟨pre, post, hqs, ?_⟩
  intro s hs _ hk
  -- A statement that can be killed has a certain write, so the byte belongs to it.
  have certain : x ∈ g.certainBytes l d := by
    by_contra hc
    obtain ⟨a, b, -, -, -, hb, -⟩ := id hk
    exact side ⟨⟨b, hb⟩, hx.resolve_left hc, hc⟩
  exact later s hs (hk.certainBytes_subset wf l certain)

end FlowGraph

/-! ## When no last writer is missed -/

variable {g : FlowGraph} {b : BlockId}

/-- **Reaching definitions have every last writer exactly when side writes
reach.** Under every strategy, limit and reading of overlap: over all paths from
the entry to a block and all executions along them, the last writer of every byte
reaches the block, if and only if this holds for the statements that may be last
to write a byte beside their certain write. -/
theorem last_writers_reach_iff (edits : List RegistryEdit) {options : Options}
    {strategy : Strategy} {sol : Solution}
    (h : analyse g (Registry.initial.run edits) options strategy = .ok sol) (hb : b ∈ g.blocks)
    (l : Layout (Registry.initial.run edits)) :
    ∃ ins, sol.in? .reach b = some ins ∧
      ((∀ qs trace, g.IsRun (qs ++ [b]) → g.Executes l qs trace →
          ∀ x d, LastWriter trace x d → d.num ∈ ins) ↔ g.SideWritesReach l b) := by
  obtain ⟨-, ins, outs, hin, -, members⟩ := reach_arrives h hb
  have mem_ins (d : StmtId) :
      d.num ∈ ins ↔ g.Writes d ∧ g.ReachesIn (Registry.initial.run edits) d b :=
    (members d.num).1.trans arrivesIn_iff
  refine ⟨ins, hin, ?_, ?_⟩
  · intro sound qs pre d post hr hqs x side later
    obtain ⟨trace, executes, last⟩ := FlowGraph.exists_lastWriter hqs side.2.1 later
    exact ((mem_ins d).mp (sound qs trace hr executes x d last)).2
  · intro reach qs trace hr executes x d last
    obtain ⟨pre, post, hqs, writes, hx, later⟩ := executes.lastWriter last
    refine (mem_ins d).mpr ⟨writes, ?_⟩
    by_cases side : x ∈ g.sideBytes l d
    · exact reach qs pre d post hr hqs x side later
    · have survives := FlowGraph.survives_of_not_sideBytes (Registry.wellFormed_run edits) hqs hx
        side later
      exact FlowGraph.reachesIn_of_survives hr.1 survives

theorem GraphTable.mem_of_row? {κ α : Type} [BEq κ] [LawfulBEq κ] {rows : List (κ × α)} {key : κ}
    {value : α} (h : row? rows key = some value) : (key, value) ∈ rows := by
  obtain ⟨before, after, hrows, -⟩ := List.lookup_eq_some_iff.mp h
  rw [← List.mem_reverse, hrows]
  simp

/-- In the loop one statement writes other globals on the side. Nothing overwrites
its certain write, so no last writer is missed after the loop. -/
theorem relay_last_writers :
    (∃ sol, analyse relay relayRegistry { strict := true } .reversePostorder = .ok sol) ∧
    ⟨2⟩ ∈ relay.blocks ∧
    ∀ qs trace, relay.IsRun (qs ++ [⟨2⟩]) → relay.Executes relayRegistry.layout qs trace →
      ∀ x d, LastWriter trace x d → d.num ∈ [1, 2, 3] := by
  obtain ⟨sol, solved, hin, -⟩ := relay_solved
  have hb : ⟨2⟩ ∈ relay.blocks := by decide
  obtain ⟨ins, hin', sound⟩ := last_writers_reach_iff relayEdits solved hb relayRegistry.layout
  obtain rfl := Option.some.inj (hin.symm.trans hin')
  have reach : relay.SideWritesReach relayRegistry.layout ⟨2⟩ := by
    rintro qs pre d post - - x ⟨⟨a, ha⟩, ⟨acc, hacc, e, he, -⟩, -⟩ -
    have row := GraphTable.mem_of_row? hacc
    simp only [FlowGraph.certain?, hacc, Option.bind_some] at ha
    simp only [List.mem_cons, Prod.mk.injEq, List.not_mem_nil, or_false] at row
    rcases row with ⟨-, rfl⟩ | ⟨-, rfl⟩ | ⟨rfl, -⟩ | ⟨-, rfl⟩
    · exact absurd he (DescSet.not_mem_empty e)
    · exact absurd he (DescSet.not_mem_empty e)
    · exact ⟨⟨1⟩, [], [⟨1⟩], [], ⟨by decide, by decide⟩, rfl, by simp⟩
    · cases ha
  refine ⟨⟨sol, solved⟩, hb, ?_⟩
  intro qs trace hr executes x d last
  exact IdSet.mem_ofList.mp (sound.mpr reach qs trace hr executes x d last)

/-- A statement that writes `x` for certain and `y` possibly, and then another
that writes `x`. -/
def spill : FlowGraph := GraphTable.toFlowGraph {
  entry := ⟨0⟩, blocks := [⟨0⟩, ⟨1⟩], rpo := [⟨0⟩, ⟨1⟩]
  preds := [(⟨1⟩, [⟨0⟩])]
  succs := [(⟨0⟩, [⟨1⟩])]
  stmts := [(⟨0⟩, [⟨0⟩, ⟨1⟩])]
  access := [(⟨0⟩, { certain := some ⟨3⟩, possible := .ofList [⟨4⟩] }),
    (⟨1⟩, { certain := some ⟨3⟩ })] }

def spillRegistry : Registry := Registry.initial.run
  [.declare "x" .localVar, .declare "y" .localVar,
    .register { base := ⟨3⟩, kind := .exact, size := 4 },
    .register { base := ⟨4⟩, kind := .exact, size := 4 }]

def spilled : Byte := ⟨⟨4⟩, 0, by decide⟩

theorem spilled_possible : spilled ∈ spill.possibleBytes spillRegistry.layout ⟨0⟩ := by
  refine ⟨_, rfl, ⟨4⟩, by decide, _, rfl, ?_⟩
  exact ⟨rfl, Nat.le_refl 0, by decide⟩

theorem spilled_not_certain : spilled ∉ spill.certainBytes spillRegistry.layout ⟨1⟩ := by
  rintro ⟨a, ha, desc, hdesc, hx⟩
  cases ha
  cases hdesc
  cases hx.1

/-- **A last writer can be missed.** After both statements have run, the byte of
`y` is still what the first one wrote, and only the second one reaches the next
block. -/
theorem spill_missed :
    ∃ sol ins, analyse spill spillRegistry {} .worklist = .ok sol ∧
      sol.in? .reach ⟨1⟩ = some ins ∧ 0 ∉ ins ∧
      ∃ qs trace, spill.IsRun (qs ++ [⟨1⟩]) ∧ spill.Executes spillRegistry.layout qs trace ∧
        LastWriter trace spilled ⟨0⟩ := by
  have answer : (analyse spill spillRegistry {} .worklist).toOption.map (·.in? .reach ⟨1⟩) =
      some (some (.ofList [1])) := by
    decide +kernel
  cases solved : analyse spill spillRegistry {} .worklist with
  | error e =>
    rw [solved] at answer
    cases answer
  | ok sol =>
    rw [solved] at answer
    have order : spill.along [⟨0⟩] = [] ++ ⟨0⟩ :: [⟨1⟩] := rfl
    obtain ⟨trace, executes, last⟩ := FlowGraph.exists_lastWriter order spilled_possible
      (by simpa using spilled_not_certain)
    exact ⟨sol, _, rfl, Option.some.inj answer, by decide, [⟨0⟩], trace,
      ⟨⟨by decide, by decide⟩, rfl⟩, executes, last⟩

end MemFlow

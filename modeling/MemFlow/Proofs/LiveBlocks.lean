import Mathlib.Data.List.Cycle
import MemFlow.Graph.Table
import MemFlow.Proofs.Analyses

/-!
# From which blocks a block can be entered

The problem is about the shape of a graph alone. It is that of reaching
definitions in the graph where every block is one statement that nothing ends, so
its solution at a block is what some path of at least one edge starts from. A
block is among them if it lies on a cycle.
-/

namespace MemFlow

namespace FlowGraph

/-- The block lies on a closed chain of edges. -/
def OnCycle (g : FlowGraph) (b : BlockId) : Prop :=
  ∃ c : Cycle BlockId, b ∈ c ∧ (∀ q ∈ c, q ∈ g.blocks) ∧ c.Chain fun p q => q ∈ g.succs p

/-- The graph with one statement in each block, numbered like the block. -/
def marked (g : FlowGraph) : FlowGraph := { g with stmts := fun b => [⟨b.num⟩] }

variable {g : FlowGraph} {b : BlockId}

theorem onCycle_iff : g.OnCycle b ↔ ∃ mid, g.IsPath (b :: mid ++ [b]) := by
  constructor
  · rintro ⟨c, hb, members, chain⟩
    obtain ⟨l, rfl⟩ : ∃ l : List BlockId, (l : Cycle BlockId) = c := Quot.exists_rep c
    obtain ⟨pre, post, rfl⟩ := List.append_of_mem (Cycle.mem_coe_iff.mp hb)
    have rotated : ((pre ++ b :: post : List BlockId) : Cycle BlockId) =
        (b :: (post ++ pre) : List BlockId) := Cycle.coe_eq_coe.mpr List.isRotated_append
    rw [rotated] at members chain
    refine ⟨post ++ pre, ?_, (Cycle.chain_coe_cons _ b _).mp chain⟩
    intro q hq
    rcases List.mem_append.mp hq with hq | hq
    · exact members q (Cycle.mem_coe_iff.mpr hq)
    · rw [List.mem_singleton.mp hq]
      exact members b (by simp)
  · rintro ⟨mid, members, chain⟩
    refine ⟨(b :: mid : List BlockId), by simp, ?_, (Cycle.chain_coe_cons _ b mid).mpr chain⟩
    intro q hq
    exact members q (List.mem_append_left _ (Cycle.mem_coe_iff.mp hq))

theorem WellFormed.marked (wf : g.WellFormed) : g.marked.WellFormed :=
  ⟨wf.nodup, wf.entry_mem, wf.closed, wf.agree, wf.reached⟩

end FlowGraph

variable {g : FlowGraph} {b : BlockId}

/-! ## The problem of the marked graph -/

/-- The statement is the mark of block `v`. -/
def Marks (v : Nat) (s : StmtId) : Prop := s.num = v

/-- Nothing takes a mark away. -/
def Unmarks (_ : Nat) (_ : StmtId) : Prop := False

theorem lasts_mark {v : Nat} {s : StmtId} : Lasts (Marks v) (Unmarks v) [s] ↔ s.num = v := by
  rw [lasts_cons]
  simp [not_lasts_nil, Marks]

theorem mem_gen_liveIn (k : BlockEffects) (i : Fin k.graph.size) (v : Nat) :
    v ∈ (k.equations .liveIn).gen.get i ↔ (k.graph.block i).num = v := by
  rw [get_eq]
  simp [BlockEffects.equations, eq_comm]

theorem not_mem_kill_liveIn (k : BlockEffects) (i : Fin k.graph.size) (v : Nat) :
    v ∉ (k.equations .liveIn).kill.get i := by
  rw [get_eq]
  simp [BlockEffects.equations]

theorem liveIn_tracks (entry : Fin g.blocks.length) (options : Options) (inv : Inventory)
    (effects : Vector Effect g.blocks.length) :
    Tracks g.marked (BlockEffects.equations ⟨options, g.dense entry, inv, effects⟩ .liveIn)
      Marks Unmarks := by
  let k : BlockEffects := ⟨options, g.dense entry, inv, effects⟩
  constructor
  · intro i v
    have mark : Lasts (Marks v) (Unmarks v) (g.marked.stmts (g.blocks.get i)) ↔
        (g.blocks.get i).num = v := lasts_mark
    exact (mem_gen_liveIn k i v).trans mark.symm
  · intro i v
    refine iff_of_false (not_mem_kill_liveIn k i v) ?_
    rintro ⟨s, -, unmarked⟩
    exact unmarked

theorem arrivesIn_marks_iff {p : BlockId} :
    p.num ∈ Tracks.arrivesIn g.marked Marks Unmarks b ↔ ∃ mid, g.IsPath (p :: mid ++ [b]) := by
  constructor
  · rintro ⟨qs, hp, lasts⟩
    obtain ⟨before, q, rest, rfl, mark, -⟩ := FlowGraph.lasts_along.mp lasts
    obtain rfl : q = p := by
      have : q.num = p.num := lasts_mark.mp mark
      cases q
      cases p
      simp_all
    have path : g.IsPath (before ++ (q :: rest ++ [b])) := by
      rw [← List.append_assoc]
      exact hp
    exact ⟨rest, path.of_append⟩
  · rintro ⟨mid, hp⟩
    refine ⟨p :: mid, hp, FlowGraph.lasts_along.mpr ⟨[], p, mid, rfl, lasts_mark.mpr rfl, ?_⟩⟩
    intro s _ unmarked
    exact unmarked

/-- Live-in blocks are the marks that arrive along some path. -/
theorem liveIn_arrives {r : Registry} {options : Options} {strategy : Strategy} {sol : Solution}
    (h : analyse g r options strategy = .ok sol) (hb : b ∈ g.blocks) :
    ∃ ins outs, sol.in? .liveIn b = some ins ∧ sol.out? .liveIn b = some outs ∧
      ∀ v, (v ∈ ins ↔ v ∈ Tracks.arrivesIn g.marked Marks Unmarks b) ∧
        (v ∈ outs ↔ v ∈ Tracks.arrivesOut g.marked Marks Unmarks b) := by
  obtain ⟨entry, inv, effects, wf, he, -, -, answers⟩ := analyse_cases h
  obtain ⟨i, rfl⟩ := List.get_of_mem hb
  obtain ⟨hin, hout⟩ := answers .liveIn i (fun hc => by cases hc)
  have tr := liveIn_tracks entry options inv effects
  refine ⟨_, _, hin, hout, ?_⟩
  intro v
  exact ⟨Tracks.mem_insOf_union wf.marked he tr rfl i v,
    Tracks.mem_fixed_union wf.marked he tr rfl i v⟩

/-- **Live-in blocks are those from which a path leads in.** For every graph that
was accepted, whatever its block numbers and their order, and under every strategy
and limit, the answer at a block is the blocks from which a path of at least one
edge leads to it. The block itself is among them exactly if it lies on a cycle. -/
theorem live_blocks_exact {k : BlockEffects} (h : DenseGraph.ofFlowGraph g = .ok k.graph)
    {strategy : Strategy} {sol : Solution} (hsolve : k.solve strategy = .ok sol)
    (hb : b ∈ g.blocks) :
    ∃ ins, sol.in? .liveIn b = some ins ∧
      (∀ p : BlockId, p.num ∈ ins ↔ ∃ mid, g.IsPath (p :: mid ++ [b])) ∧
      (b.num ∈ ins ↔ g.OnCycle b) := by
  obtain ⟨options, graph, inv, effects⟩ := k
  obtain ⟨wf, entry, he, rfl⟩ := DenseGraph.ofFlowGraph_cases h
  obtain ⟨i, rfl⟩ := List.get_of_mem hb
  obtain ⟨hin, -⟩ := BlockEffects.solve_answers h hsolve .liveIn i (fun hc => by cases hc)
  have tr := liveIn_tracks entry options inv effects
  have members (p : BlockId) :=
    (Tracks.mem_insOf_union wf.marked he tr rfl i p.num).trans arrivesIn_marks_iff
  exact ⟨_, hin, members, (members (g.blocks.get i)).trans FlowGraph.onCycle_iff.symm⟩

/-- A block that loops and that can go back to the entry or leave, with numbers in
no order. -/
def porch : FlowGraph := GraphTable.toFlowGraph {
  entry := ⟨70⟩, blocks := [⟨900⟩, ⟨3⟩, ⟨70⟩], rpo := [⟨70⟩, ⟨3⟩, ⟨900⟩]
  preds := [(⟨70⟩, [⟨3⟩]), (⟨3⟩, [⟨70⟩, ⟨3⟩]), (⟨900⟩, [⟨3⟩])]
  succs := [(⟨70⟩, [⟨3⟩]), (⟨3⟩, [⟨900⟩, ⟨3⟩, ⟨70⟩])] }

theorem porch_solved : ∃ k sol,
    BlockEffects.compute porch Registry.initial { sweepLimit := some 1 } = .ok k ∧
    k.solve .reversePostorder = .ok sol ∧
    sol.in? .liveIn ⟨900⟩ = some (.ofList [3, 70]) ∧
    sol.in? .liveIn ⟨70⟩ = some (.ofList [3, 70]) := by
  have answers :
      (analyse porch Registry.initial { sweepLimit := some 1 } .reversePostorder).toOption.map
        (fun sol => (sol.in? .liveIn ⟨900⟩, sol.in? .liveIn ⟨70⟩)) =
      some (some (.ofList [3, 70]), some (.ofList [3, 70])) := by
    decide +kernel
  obtain ⟨sol, solved, answers⟩ := exists_solution answers
  obtain ⟨k, computed, hsolve⟩ := analyse_eq_ok.mp solved
  exact ⟨k, sol, computed, hsolve, by simpa only [Prod.mk.injEq] using answers⟩

/-- The way out can be entered from the entry and is on no cycle; the entry is on
one. -/
theorem porch_live :
    (∃ (k : BlockEffects) (sol : Solution), DenseGraph.ofFlowGraph porch = .ok k.graph ∧
      k.solve .reversePostorder = .ok sol) ∧
    ⟨900⟩ ∈ porch.blocks ∧ ⟨70⟩ ∈ porch.blocks ∧
    (∃ mid, porch.IsPath (⟨70⟩ :: mid ++ [⟨900⟩])) ∧
    ¬ porch.OnCycle ⟨900⟩ ∧ porch.OnCycle ⟨70⟩ := by
  obtain ⟨k, sol, computed, hsolve, hout, hentry⟩ := porch_solved
  have accepted := BlockEffects.accepted_of_compute computed
  have hb : ⟨900⟩ ∈ porch.blocks := by decide
  have hb' : ⟨70⟩ ∈ porch.blocks := by decide
  obtain ⟨ins, hin, members, cycle⟩ := live_blocks_exact accepted hsolve hb
  obtain ⟨ins', hin', -, cycle'⟩ := live_blocks_exact accepted hsolve hb'
  obtain rfl := Option.some.inj (hout.symm.trans hin)
  obtain rfl := Option.some.inj (hentry.symm.trans hin')
  refine ⟨⟨k, sol, accepted, hsolve⟩, hb, hb', (members ⟨70⟩).mp (by decide), ?_,
    cycle'.mp (by decide)⟩
  intro onCycle
  have : 900 ∈ IdSet.ofList [3, 70] := cycle.mpr onCycle
  exact absurd this (by decide)

end MemFlow

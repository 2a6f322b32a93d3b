import MemFlow.Graph.Builder
import MemFlow.Proofs.Checks
import MemFlow.Proofs.LiveBlocks

/-!
# The order in which a built graph is swept

A walk from the entry finishes a node after all that it entered from there, and the last one
finished comes first. While a node is being walked from, it and the nodes on the way to it are
open, and each of these leads to it. So when the walk meets a node that was entered before,
that node is finished already, and will stand later in the order, or it is open and leads back.
-/

namespace MemFlow

namespace Walk

variable {α : Type} {succs : α → List α} {w : Walk α} {v : α}

/-- The node was entered and is not finished. -/
def Open (w : Walk α) (x : α) : Prop := x ∈ w.seen ∧ x ∉ w.finished

/-- The finished nodes were entered and are listed once each, and a successor of one of them
stands later in the list or leads back to it. -/
structure Ordered (succs : α → List α) (w : Walk α) : Prop where
  entered : ∀ x ∈ w.finished, x ∈ w.seen
  nodup : w.finished.Nodup
  later : ∀ front x back, w.finished = front ++ x :: back →
    ∀ c ∈ succs x, c ∈ back ∨ Leads succs c x

theorem ordered_new : Ordered succs ({} : Walk α) := by
  refine ⟨by simp, List.nodup_nil, ?_⟩
  intro front x back split
  simp at split

theorem Ordered.enter (h : Ordered succs w) (v : α) :
    Ordered succs { w with seen := v :: w.seen } :=
  { h with entered := fun x hx => List.mem_cons_of_mem v (h.entered x hx) }

/-- A node can be finished if its successors are, or lead back to it. -/
theorem Ordered.finish (h : Ordered succs w) (hv : w.Open v)
    (done : ∀ c ∈ succs v, c ∈ w.finished ∨ Leads succs c v) :
    Ordered succs { w with finished := v :: w.finished } := by
  refine ⟨?_, List.nodup_cons.mpr ⟨hv.2, h.nodup⟩, ?_⟩
  · intro x hx
    rcases List.mem_cons.mp hx with rfl | hx
    · exact hv.1
    · exact h.entered x hx
  · intro front x back split
    cases front with
    | nil =>
      obtain ⟨rfl, rfl⟩ := List.cons.inj split
      exact done
    | cons y front => exact h.later front x back (List.cons.inj split).2

theorem open_enter (h : Ordered succs w) (new : v ∉ w.seen) (x : α) :
    Open { w with seen := v :: w.seen } x ↔ x = v ∨ w.Open x := by
  simp only [Open, List.mem_cons]
  constructor
  · rintro ⟨rfl | hx, unfinished⟩
    · exact Or.inl rfl
    · exact Or.inr ⟨hx, unfinished⟩
  · rintro (rfl | ⟨hx, unfinished⟩)
    · exact ⟨Or.inl rfl, fun hx => new (h.entered _ hx)⟩
    · exact ⟨Or.inr hx, unfinished⟩

variable [DecidableEq α]

/-- What a visit does to the order: it stays one, and what was open before is open after. -/
structure Advances (succs : α → List α) (w w' : Walk α) : Prop where
  ordered : Ordered succs w'
  open_iff : ∀ x, w'.Open x ↔ w.Open x

theorem advances_foldl {nodes : List α} {fuel : Nat}
    (closed : ∀ x ∈ nodes, ∀ c ∈ succs x, c ∈ nodes)
    (ih : ∀ w v, v ∈ nodes → w.unseen nodes ≤ fuel → Ordered succs w →
      (∀ x, w.Open x → Leads succs x v) → Advances succs w (visit succs fuel w v))
    {vs : List α} (hvs : ∀ v ∈ vs, v ∈ nodes) (hf : w.unseen nodes ≤ fuel)
    (h : Ordered succs w) (leads : ∀ x, w.Open x → ∀ v ∈ vs, Leads succs x v) :
    Advances succs w (vs.foldl (visit succs fuel) w) := by
  induction vs generalizing w with
  | nil => exact ⟨h, fun _ => Iff.rfl⟩
  | cons v vs ihvs =>
    have hv := hvs v List.mem_cons_self
    have first := ih w v hv hf h fun x hx => leads x hx v List.mem_cons_self
    have enough := (explores_visit closed fuel w v hv hf).1.unseen_le nodes
    have later := ihvs (fun u hu => hvs u (List.mem_cons_of_mem v hu)) (by omega) first.ordered
      fun x hx u hu => leads x ((first.open_iff x).mp hx) u (List.mem_cons_of_mem v hu)
    exact ⟨later.ordered, fun x => (later.open_iff x).trans (first.open_iff x)⟩

/-- **A visit keeps the order**, if all that is open leads to the node. -/
theorem advances_visit {nodes : List α} (closed : ∀ x ∈ nodes, ∀ c ∈ succs x, c ∈ nodes)
    (fuel : Nat) (w : Walk α) (v : α) (hv : v ∈ nodes) (hf : w.unseen nodes ≤ fuel)
    (h : Ordered succs w) (leads : ∀ x, w.Open x → Leads succs x v) :
    Advances succs w (visit succs fuel w v) := by
  induction fuel generalizing w v with
  | zero => exact ⟨h, fun _ => Iff.rfl⟩
  | succ fuel ih =>
    rw [visit]
    by_cases seen : v ∈ w.seen
    · rw [if_pos seen]
      exact ⟨h, fun _ => Iff.rfl⟩
    · rw [if_neg seen]
      have entered := open_enter h seen
      have back : ∀ x, Open { w with seen := v :: w.seen } x → Leads succs x v := by
        intro x hx
        rcases (entered x).mp hx with rfl | hx
        · exact .refl
        · exact leads x hx
      have less := unseen_enter hv seen
      have enough : unseen nodes { w with seen := v :: w.seen } ≤ fuel := by omega
      have inner := advances_foldl closed ih (closed v hv) enough (h.enter v)
        fun x hx c hc => (back x hx).tail hc
      have children := (explores_foldl (explores_visit closed fuel) (closed v hv) enough).2
      have unfinished := (inner.open_iff v).mpr ((entered v).mpr (Or.inl rfl))
      constructor
      · apply inner.ordered.finish unfinished
        intro c hc
        -- The child was entered. If it is not finished, it was open before and leads here.
        by_cases finished : c ∈ ((succs v).foldl (visit succs fuel)
            { w with seen := v :: w.seen }).finished
        · exact Or.inl finished
        · exact Or.inr (back c ((inner.open_iff c).mp ⟨children c hc, finished⟩))
      · intro x
        have before := (inner.open_iff x).trans (entered x)
        simp only [Open, List.mem_cons, not_or] at before unfinished ⊢
        by_cases hxv : x = v
        · subst hxv
          simp [seen]
        · simp only [hxv, not_false_eq_true, true_and, false_or] at before ⊢
          exact before

/-- The nodes finished are those entered: nothing is open when a walk ends. -/
theorem ordered_start {nodes : List α} (closed : ∀ x ∈ nodes, ∀ c ∈ succs x, c ∈ nodes)
    {root : α} (hroot : root ∈ nodes) :
    Ordered succs (start succs nodes.length root) ∧
      ∀ x, x ∈ (start succs nodes.length root).finished ↔ Leads succs root x := by
  have fuel : unseen nodes ({} : Walk α) ≤ nodes.length := List.length_filter_le _ _
  have none_open : ∀ x, ¬ Open ({} : Walk α) x := fun x hx => by simp [Open] at hx
  have advances := advances_visit closed nodes.length {} root hroot fuel ordered_new
    fun x hx => absurd hx (none_open x)
  refine ⟨advances.ordered, ?_⟩
  intro x
  rw [← mem_seen_start closed hroot]
  constructor
  · exact advances.ordered.entered x
  · intro hx
    by_contra unfinished
    exact none_open x ((advances.open_iff x).mp ⟨hx, unfinished⟩)

theorem head?_start (succs : α → List α) (size : Nat) (root : α) :
    (start succs (size + 1) root).finished.head? = some root := by
  simp [start, visit]

theorem Ordered.idxOf_lt_or_leads (h : Ordered succs w) {x c : α} (hx : x ∈ w.finished)
    (hc : c ∈ succs x) : w.finished.idxOf x < w.finished.idxOf c ∨ Leads succs c x := by
  obtain ⟨front, back, split⟩ := List.append_of_mem hx
  rcases h.later front x back split c hc with later | leads
  · left
    have nodup := h.nodup
    rw [split, List.nodup_append, List.nodup_cons] at nodup
    have x_new : x ∉ front := fun again => nodup.2.2 x again x List.mem_cons_self rfl
    have c_new : c ∉ front := fun again =>
      nodup.2.2 c again c (List.mem_cons_of_mem x later) rfl
    have other : x ≠ c := fun same => nodup.2.1.1 (same ▸ later)
    rw [split, List.idxOf_append_of_notMem x_new, List.idxOf_append_of_notMem c_new,
      List.idxOf_cons_self, List.idxOf_cons_ne _ other]
    omega
  · exact Or.inr leads

end Walk

/-! ## Built graphs -/

namespace GraphBuilder

variable {c : GraphBuilder} {u v b : BlockId}

theorem mem_blockIds : b ∈ c.blockIds ↔ b.num < c.blocks.size := by
  simp only [blockIds, List.mem_map, List.mem_range]
  constructor
  · rintro ⟨i, hi, rfl⟩
    exact hi
  · intro hb
    exact ⟨b.num, hb, rfl⟩

theorem length_blockIds : c.blockIds.length = c.blocks.size := by
  simp [blockIds]

theorem mem_liveSuccs : v ∈ c.liveSuccs u ↔ v ∈ c.succs u ∧ v ∈ c.blockIds := by
  rw [liveSuccs, List.mem_filter, decide_eq_true_eq, mem_blockIds]

/-- A block without an id in the graph has no successors, so no way leads through it. -/
theorem mem_blockIds_of_succ (h : v ∈ c.succs u) : u ∈ c.blockIds := by
  rw [mem_blockIds]
  by_contra missing
  have none : c.block? u = none := Array.getElem?_eq_none (by omega)
  simp [succs, none] at h

theorem leads_liveSuccs_iff (hu : u ∈ c.blockIds) :
    Walk.Leads c.liveSuccs u v ↔ v ∈ c.blockIds ∧ Walk.Leads c.succs u v := by
  constructor
  · intro leads
    induction leads with
    | refl => exact ⟨hu, .refl⟩
    | tail _ edge ih =>
      obtain ⟨edge, listed⟩ := mem_liveSuccs.mp edge
      exact ⟨listed, ih.2.tail edge⟩
  · rintro ⟨hv, leads⟩
    induction leads with
    | refl => exact .refl
    | tail _ edge ih => exact (ih (mem_blockIds_of_succ edge)).tail (mem_liveSuccs.mpr ⟨edge, hv⟩)

theorem isPath_of_chain {qs : List BlockId} (hu : u ∈ c.blockIds)
    (chain : (u :: qs).IsChain fun p q => q ∈ c.liveSuccs p) : c.toFlowGraph.IsPath (u :: qs) := by
  refine ⟨?_, chain.imp fun p q edge => (mem_liveSuccs.mp edge).1⟩
  induction qs generalizing u with
  | nil =>
    intro q hq
    rw [List.mem_singleton.mp hq]
    exact hu
  | cons q qs ih =>
    obtain ⟨edge, rest⟩ := List.isChain_cons_cons.mp chain
    have later := ih (mem_liveSuccs.mp edge).2 rest
    exact List.forall_mem_cons.mpr ⟨hu, later⟩

/-- An edge whose target leads back closes a cycle. -/
theorem onCycle_of_leads (edge : v ∈ c.liveSuccs u) (back : Walk.Leads c.liveSuccs v u) :
    c.toFlowGraph.OnCycle u := by
  obtain ⟨qs, chain, last⟩ := List.exists_isChain_cons_of_relationReflTransGen back
  have whole : u :: (v :: qs).dropLast ++ [u] = u :: v :: qs := by
    have := List.dropLast_append_getLast (List.cons_ne_nil v qs)
    rw [last] at this
    rw [List.cons_append, this]
  have hu := mem_blockIds_of_succ (mem_liveSuccs.mp edge).1
  apply FlowGraph.onCycle_iff.mpr
  refine ⟨(v :: qs).dropLast, ?_⟩
  rw [whole]
  exact isPath_of_chain hu (List.isChain_cons_cons.mpr ⟨edge, chain⟩)

theorem reversePostorder_of_entry (h : c.entry ∈ c.blockIds) :
    c.reversePostorder = (Walk.start c.liveSuccs c.blockIds.length c.entry).finished := by
  rw [reversePostorder, if_pos (mem_blockIds.mp h), length_blockIds]

theorem liveSuccs_closed : ∀ x ∈ c.blockIds, ∀ y ∈ c.liveSuccs x, y ∈ c.blockIds :=
  fun _ _ _ hy => (mem_liveSuccs.mp hy).2

theorem nodup_reversePostorder (h : c.entry ∈ c.blockIds) : c.reversePostorder.Nodup := by
  rw [reversePostorder_of_entry h]
  exact (Walk.ordered_start liveSuccs_closed h).1.nodup

theorem head?_reversePostorder (h : c.entry ∈ c.blockIds) :
    c.reversePostorder.head? = some c.entry := by
  obtain ⟨size, hsize⟩ : ∃ size, c.blockIds.length = size + 1 :=
    Nat.exists_eq_add_one.mpr (List.length_pos_of_mem h)
  rw [reversePostorder_of_entry h, hsize]
  exact Walk.head?_start _ _ _

theorem mem_reversePostorder (h : c.entry ∈ c.blockIds) :
    b ∈ c.reversePostorder ↔ b ∈ c.blockIds ∧ Walk.Leads c.succs c.entry b := by
  rw [reversePostorder_of_entry h, (Walk.ordered_start liveSuccs_closed h).2,
    leads_liveSuccs_iff h]

/-- An edge goes forward in the order, or its target leads back. -/
theorem reversePostorder_forward (h : c.entry ∈ c.blockIds) (hu : u ∈ c.reversePostorder)
    (edge : v ∈ c.liveSuccs u) :
    c.reversePostorder.idxOf u < c.reversePostorder.idxOf v ∨ Walk.Leads c.liveSuccs v u := by
  rw [reversePostorder_of_entry h] at hu ⊢
  exact (Walk.ordered_start liveSuccs_closed h).1.idxOf_lt_or_leads hu edge

/-- Without cycles every edge goes forward. -/
theorem reversePostorder_topological (h : c.entry ∈ c.blockIds)
    (acyclic : ∀ b, ¬ c.toFlowGraph.OnCycle b) (hu : u ∈ c.reversePostorder)
    (edge : v ∈ c.liveSuccs u) : c.reversePostorder.idxOf u < c.reversePostorder.idxOf v := by
  rcases reversePostorder_forward h hu edge with forward | back
  · exact forward
  · exact absurd (onCycle_of_leads edge back) (acyclic u)

/-- An accepted graph can be swept in its own order. -/
theorem reversePostorder_usable (wf : c.toFlowGraph.WellFormed) :
    c.reversePostorder.Perm c.blockIds ∧ c.reversePostorder.head? = some c.entry := by
  have h : c.entry ∈ c.blockIds := wf.entry_mem
  refine ⟨?_, head?_reversePostorder h⟩
  apply (List.perm_ext_iff_of_nodup (nodup_reversePostorder h) wf.nodup).mpr
  intro b
  rw [mem_reversePostorder h]
  exact and_iff_left_of_imp fun hb => wf.reached b hb

end GraphBuilder

/-- **The order of a built graph is a reverse postorder.** However a graph was built, with
edges that dangle, repeat or loop and whether or not its entry exists, the order is empty
exactly if the entry does not exist. Otherwise it starts with the entry and lists once each the
blocks of the graph that the entry leads to, and an edge between two of them goes forward or
its target leads back to its source; without cycles all of them go forward. A graph that is
accepted can therefore be swept in its order, and nothing fails once the effects of its blocks
are computed. -/
theorem built_order_is_reverse_postorder (c : GraphBuilder) :
    let order := c.reversePostorder
    (order = [] ↔ c.entry ∉ c.blockIds) ∧
    (c.entry ∈ c.blockIds →
      order.Nodup ∧ order.head? = some c.entry ∧
      (∀ b, b ∈ order ↔ b ∈ c.blockIds ∧ Walk.Leads c.succs c.entry b) ∧
      (∀ u ∈ order, ∀ v ∈ order, v ∈ c.succs u →
        order.idxOf u < order.idxOf v ∨ Walk.Leads c.succs v u) ∧
      ((∀ b, ¬ c.toFlowGraph.OnCycle b) →
        ∀ u ∈ order, ∀ v ∈ order, v ∈ c.succs u → order.idxOf u < order.idxOf v)) ∧
    (∀ d, DenseGraph.ofFlowGraph c.toFlowGraph = .ok d → ∃ positions, d.rpo = .ok positions) ∧
    ∀ r options k, BlockEffects.compute c.toFlowGraph r options = .ok k →
      ∃ sol, k.solve .reversePostorder = .ok sol := by
  intro order
  refine ⟨?_, ?_, ?_, ?_⟩
  · constructor
    · intro empty h
      have head := GraphBuilder.head?_reversePostorder h
      rw [show c.reversePostorder = [] from empty] at head
      cases head
    · intro missing
      exact if_neg fun h => missing (GraphBuilder.mem_blockIds.mpr h)
  · intro h
    have listed (b : BlockId) : b ∈ order ↔ b ∈ c.blockIds ∧ Walk.Leads c.succs c.entry b :=
      GraphBuilder.mem_reversePostorder h
    have live : ∀ u, ∀ v ∈ order, v ∈ c.succs u → v ∈ c.liveSuccs u := by
      intro u v hv edge
      exact GraphBuilder.mem_liveSuccs.mpr ⟨edge, ((listed v).mp hv).1⟩
    refine ⟨GraphBuilder.nodup_reversePostorder h, GraphBuilder.head?_reversePostorder h,
      listed, ?_, ?_⟩
    · intro u hu v hv edge
      rcases GraphBuilder.reversePostorder_forward h hu (live u v hv edge) with forward | back
      · exact Or.inl forward
      · exact Or.inr ((GraphBuilder.leads_liveSuccs_iff ((listed v).mp hv).1).mp back).2
    · intro acyclic u hu v hv edge
      exact GraphBuilder.reversePostorder_topological h acyclic hu (live u v hv edge)
  · intro d accepted
    obtain ⟨wf, entry, -, rfl⟩ := DenseGraph.ofFlowGraph_cases accepted
    exact (FlowGraph.denseOrder_ok_iff wf.nodup).mpr (GraphBuilder.reversePostorder_usable wf)
  · intro r options k computed
    obtain ⟨wf, -⟩ := DenseGraph.ofFlowGraph_cases (BlockEffects.accepted_of_compute computed)
    cases solved : k.solve .reversePostorder with
    | ok sol => exact ⟨sol, rfl⟩
    | error e =>
      have unusable := (BlockEffects.solve_reversePostorder_fails_iff computed).mp ⟨e, solved⟩
      exact absurd (GraphBuilder.reversePostorder_usable wf) unusable

/-- A loop of two blocks below the entry, one of which loops by itself, with a repeated edge; and
what may be added to it: a block that nothing leads to and an edge to one that does not exist. -/
def eddy (more : List BuildStep) : GraphBuilder :=
  GraphBuilder.run {} ([.addBlock, .addBlock, .addBlock, .setEntry ⟨1⟩,
    .addEdge ⟨1⟩ ⟨0⟩, .addEdge ⟨0⟩ ⟨2⟩, .addEdge ⟨0⟩ ⟨2⟩, .addEdge ⟨2⟩ ⟨2⟩,
    .addEdge ⟨2⟩ ⟨0⟩] ++ more)

/-- Two ways from the entry that meet again, the later block of each edge with the greater
number. -/
def fork : GraphBuilder :=
  GraphBuilder.run {} [.addBlock, .addBlock, .addBlock, .addBlock,
    .addEdge ⟨0⟩ ⟨2⟩, .addEdge ⟨0⟩ ⟨1⟩, .addEdge ⟨2⟩ ⟨3⟩, .addEdge ⟨1⟩ ⟨3⟩]

theorem fork_acyclic (b : BlockId) : ¬ fork.toFlowGraph.OnCycle b := by
  have rising : ∀ u ∈ fork.blockIds, ∀ v ∈ fork.succs u, u.num < v.num := by decide
  rw [FlowGraph.onCycle_iff]
  rintro ⟨mid, members, chain⟩
  have ascending : ((b :: mid ++ [b]).map (·.num)).IsChain (· < ·) := by
    apply (List.isChain_map _).mpr
    apply chain.imp
    intro u v edge
    exact rising u (GraphBuilder.mem_blockIds_of_succ edge) v edge
  have first := List.rel_of_pairwise_cons (List.isChain_iff_pairwise.mp ascending)
    (List.mem_map_of_mem (List.mem_append_right mid List.mem_cons_self))
  exact Nat.lt_irrefl _ first

/-- With a stray edge and a block out of reach the order is still that of the loop, whose edge
back closes a cycle; without them the loop can be swept. The fork is swept from top to
bottom. -/
theorem eddy_ordered :
    let stray := eddy [.addBlock, .addEdge ⟨3⟩ ⟨0⟩, .addEdge ⟨0⟩ ⟨7⟩]
    (stray.entry ∈ stray.blockIds ∧ stray.reversePostorder = [⟨1⟩, ⟨0⟩, ⟨2⟩] ∧
      ⟨0⟩ ∈ stray.succs ⟨2⟩ ∧ Walk.Leads stray.succs ⟨0⟩ ⟨2⟩ ∧
      ¬ Walk.Leads stray.succs stray.entry ⟨3⟩) ∧
    (∃ k, BlockEffects.compute (eddy []).toFlowGraph .initial {} = .ok k ∧
      ∃ sol, k.solve .reversePostorder = .ok sol) ∧
    fork.entry ∈ fork.blockIds ∧ (∀ b, ¬ fork.toFlowGraph.OnCycle b) ∧
    fork.reversePostorder.idxOf ⟨1⟩ < fork.reversePostorder.idxOf ⟨3⟩ := by
  intro stray
  have entry : stray.entry ∈ stray.blockIds := by decide
  have order : stray.reversePostorder = [⟨1⟩, ⟨0⟩, ⟨2⟩] := by decide
  obtain ⟨-, sound, -, -⟩ := built_order_is_reverse_postorder stray
  obtain ⟨-, -, listed, edges, -⟩ := sound entry
  obtain ⟨-, -, -, solves⟩ := built_order_is_reverse_postorder (eddy [])
  obtain ⟨-, forkSound, -, -⟩ := built_order_is_reverse_postorder fork
  have forkEntry : fork.entry ∈ fork.blockIds := by decide
  obtain ⟨-, -, -, -, forward⟩ := forkSound forkEntry
  refine ⟨⟨entry, order, by decide, ?_, ?_⟩, ?_, forkEntry, fork_acyclic, ?_⟩
  · have back := edges ⟨2⟩ (by decide) ⟨0⟩ (by decide) (by decide)
    exact back.resolve_left (by decide)
  · intro leads
    have := (listed ⟨3⟩).mpr ⟨by decide, leads⟩
    exact absurd this (by decide)
  · have accepted : ∃ d, DenseGraph.ofFlowGraph (eddy []).toFlowGraph = .ok d := ⟨_, rfl⟩
    have collected : ∃ inv, Inventory.ofFlowGraph (eddy []).toFlowGraph .initial = .ok inv :=
      ⟨_, rfl⟩
    obtain ⟨d, accepted⟩ := accepted
    obtain ⟨inv, collected⟩ := collected
    obtain ⟨k, computed⟩ := BlockEffects.compute_ok accepted collected {}
    exact ⟨k, computed, solves _ _ k computed⟩
  · exact forward fork_acyclic ⟨1⟩ (by decide) ⟨3⟩ (by decide) (by decide)

end MemFlow

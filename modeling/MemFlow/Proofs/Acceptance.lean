import Mathlib.Data.List.Duplicate
import Mathlib.Data.List.Perm.Subperm
import MemFlow.Graph.Table
import MemFlow.Proofs.Validation

/-!
# Which graphs are accepted

Validation makes its checks one after the other and stops at the first that
fails. The block that it names then violates one of the rules that make a graph
well formed, and a well-formed graph has no such block, so exactly the well-formed
graphs are accepted. The check that every block can be reached is the one that
needs an argument: the walk from the entry has fuel for every block, and so it
enters all that the entry leads to.
-/

namespace MemFlow

/-! ## A walk enters all that its root leads to -/

namespace Walk

variable {α : Type} {succs : α → List α} {w w' w'' : Walk α}

/-- One walk goes on from another: what it entered since has had its successors
entered too. -/
structure Explores (succs : α → List α) (w w' : Walk α) : Prop where
  keeps : ∀ x ∈ w.seen, x ∈ w'.seen
  explored : ∀ x ∈ w'.seen, x ∉ w.seen → ∀ c ∈ succs x, c ∈ w'.seen

theorem Explores.refl (w : Walk α) : Explores succs w w :=
  ⟨fun _ hx => hx, fun _ hx hn => absurd hx hn⟩

theorem Explores.trans (h : Explores succs w w') (h' : Explores succs w' w'') :
    Explores succs w w'' := by
  refine ⟨fun x hx => h'.keeps x (h.keeps x hx), ?_⟩
  intro x hx hn c hc
  by_cases hmid : x ∈ w'.seen
  · exact h'.keeps c (h.explored x hmid hn c hc)
  · exact h'.explored x hx hmid c hc

variable [DecidableEq α]

/-- How many of the nodes the walk has yet to enter. -/
def unseen (nodes : List α) (w : Walk α) : Nat := (nodes.filter (· ∉ w.seen)).length

theorem Explores.unseen_le (h : Explores succs w w') (nodes : List α) :
    w'.unseen nodes ≤ w.unseen nodes := by
  unfold unseen
  rw [← List.countP_eq_length_filter, ← List.countP_eq_length_filter]
  apply List.countP_mono_left
  intro x _ hx
  simp only [decide_eq_true_eq] at hx ⊢
  exact fun hseen => hx (h.keeps x hseen)

theorem unseen_enter {nodes : List α} {v : α} (hv : v ∈ nodes) (hn : v ∉ w.seen) :
    unseen nodes { w with seen := v :: w.seen } < w.unseen nodes := by
  have rest : nodes.filter (· ∉ v :: w.seen) =
      (nodes.filter (· ∉ w.seen)).filter (· ≠ v) := by
    rw [List.filter_filter]
    apply List.filter_congr
    intro x _
    simp
  unfold unseen
  rw [rest, List.length_filter_lt_length_iff_exists]
  exact ⟨v, by simp [hv, hn], by simp⟩

theorem explores_foldl {nodes : List α} {fuel : Nat}
    (ih : ∀ w v, v ∈ nodes → w.unseen nodes ≤ fuel →
      Explores succs w (visit succs fuel w v) ∧ v ∈ (visit succs fuel w v).seen)
    {vs : List α} (hvs : ∀ v ∈ vs, v ∈ nodes) (hf : w.unseen nodes ≤ fuel) :
    Explores succs w (vs.foldl (visit succs fuel) w) ∧
      ∀ v ∈ vs, v ∈ (vs.foldl (visit succs fuel) w).seen := by
  induction vs generalizing w with
  | nil => exact ⟨.refl w, by simp⟩
  | cons v vs ihvs =>
    obtain ⟨first, entered⟩ := ih w v (hvs v List.mem_cons_self) hf
    have enough := Nat.le_trans (first.unseen_le nodes) hf
    obtain ⟨later, others⟩ := ihvs (fun u hu => hvs u (List.mem_cons_of_mem v hu)) enough
    refine ⟨first.trans later, ?_⟩
    intro u hu
    rcases List.mem_cons.mp hu with rfl | hu
    · exact later.keeps u entered
    · exact others u hu

theorem explores_visit {nodes : List α} (closed : ∀ x ∈ nodes, ∀ c ∈ succs x, c ∈ nodes)
    (fuel : Nat) (w : Walk α) (v : α) (hv : v ∈ nodes) (hf : w.unseen nodes ≤ fuel) :
    Explores succs w (visit succs fuel w v) ∧ v ∈ (visit succs fuel w v).seen := by
  induction fuel generalizing w v with
  | zero =>
    refine ⟨.refl w, ?_⟩
    -- No fuel is left, but neither is a node to enter.
    by_contra hn
    exact Nat.not_lt_zero _ (Nat.lt_of_lt_of_le (unseen_enter hv hn) hf)
  | succ fuel ih =>
    by_cases hseen : v ∈ w.seen
    · rw [visit, if_pos hseen]
      exact ⟨.refl w, hseen⟩
    · rw [visit, if_neg hseen]
      have less := unseen_enter hv hseen
      obtain ⟨inner, children⟩ := explores_foldl ih (closed v hv)
        (by omega : unseen nodes { w with seen := v :: w.seen } ≤ fuel)
      refine ⟨⟨fun x hx => inner.keeps x (List.mem_cons_of_mem v hx), ?_⟩,
        inner.keeps v List.mem_cons_self⟩
      intro x hx hn
      by_cases hxv : x = v
      · subst hxv
        exact children
      · apply inner.explored x hx
        simp [hxv, hn]

/-- **A walk enters exactly what its root leads to**, if its fuel is the number of
nodes. -/
theorem mem_seen_start {nodes : List α} (closed : ∀ x ∈ nodes, ∀ c ∈ succs x, c ∈ nodes)
    {root : α} (hroot : root ∈ nodes) (x : α) :
    x ∈ (start succs nodes.length root).seen ↔ Leads succs root x := by
  refine ⟨leads_of_mem_seen, ?_⟩
  have fuel : unseen nodes ({} : Walk α) ≤ nodes.length := List.length_filter_le _ _
  obtain ⟨explores, entered⟩ := explores_visit closed nodes.length {} root hroot fuel
  intro leads
  induction leads with
  | refl => exact entered
  | tail _ hc ih => exact explores.explored _ ih (by simp) _ hc

end Walk

/-! ## What is wrong at a block -/

namespace FlowGraph

/-- The block breaks one of the rules that make a graph well formed. -/
inductive Violates (g : FlowGraph) : BlockId → Prop where
  /-- It is listed twice. -/
  | repeated {b : BlockId} (twice : g.blocks.Duplicate b) : g.Violates b
  /-- It is the entry and is not listed. -/
  | entry (missing : g.entry ∉ g.blocks) : g.Violates g.entry
  /-- It is a neighbour of a listed block and is not listed. -/
  | stray {b u : BlockId} (listed : u ∈ g.blocks) (edge : b ∈ g.preds u ++ g.succs u)
      (missing : b ∉ g.blocks) : g.Violates b
  /-- It has a successor that does not know it. -/
  | oneSidedSucc {b v : BlockId} (listed : b ∈ g.blocks) (other : v ∈ g.blocks)
      (edge : v ∈ g.succs b) (unknown : b ∉ g.preds v) : g.Violates b
  /-- It has a predecessor that does not know it. -/
  | oneSidedPred {b u : BlockId} (listed : b ∈ g.blocks) (other : u ∈ g.blocks)
      (edge : u ∈ g.preds b) (unknown : b ∉ g.succs u) : g.Violates b
  /-- The entry does not lead to it. -/
  | unreachable {b : BlockId} (listed : b ∈ g.blocks)
      (apart : ¬ Walk.Leads g.succs g.entry b) : g.Violates b

end FlowGraph

theorem duplicate_of_firstRepeat {α : Type} [DecidableEq α] {seen as : List α} {a : α}
    (h : firstRepeat seen as = some a) : a ∈ as ∧ (a ∈ seen ∨ as.Duplicate a) := by
  induction as generalizing seen with
  | nil => cases h
  | cons c as ih =>
    simp only [firstRepeat] at h
    split at h
    · rename_i hc
      cases h
      exact ⟨List.mem_cons_self, Or.inl hc⟩
    · obtain ⟨ha, before⟩ := ih h
      refine ⟨List.mem_cons_of_mem c ha, ?_⟩
      rcases before with before | twice
      · rcases List.mem_cons.mp before with rfl | before
        · exact Or.inr (.cons_mem ha)
        · exact Or.inl before
      · exact Or.inr (.cons_duplicate twice)

namespace FlowGraph

variable {g : FlowGraph} {b : BlockId}

theorem violates_of_strayNeighbour (h : g.strayNeighbour? = some b) : g.Violates b := by
  obtain ⟨u, listed, hf⟩ := List.exists_of_findSome?_eq_some h
  have missing := List.find?_some hf
  exact .stray listed (List.mem_of_find?_eq_some hf) (by simpa using missing)

theorem violates_of_unansweredSucc (closed : g.strayNeighbour? = none)
    (h : g.unansweredSucc? = some b) : g.Violates b := by
  have listed := List.mem_of_find?_eq_some h
  have found := List.find?_some h
  obtain ⟨v, edge, unknown⟩ := List.any_eq_true.mp found
  have other := closed_of_strayNeighbour closed b listed v (List.mem_append_right _ edge)
  exact .oneSidedSucc listed other edge (by simpa using unknown)

theorem violates_of_unansweredPred (closed : g.strayNeighbour? = none)
    (h : g.unansweredPred? = some b) : g.Violates b := by
  have listed := List.mem_of_find?_eq_some h
  have found := List.find?_some h
  obtain ⟨u, edge, unknown⟩ := List.any_eq_true.mp found
  have other := closed_of_strayNeighbour closed b listed u (List.mem_append_left _ edge)
  exact .oneSidedPred listed other edge (by simpa using unknown)

theorem violates_of_unreachable (entry : g.entry ∈ g.blocks) (closed : g.strayNeighbour? = none)
    (h : g.unreachable? = some b) : g.Violates b := by
  have succs_listed : ∀ x ∈ g.blocks, ∀ c ∈ g.succs x, c ∈ g.blocks := by
    intro x hx c hc
    exact closed_of_strayNeighbour closed x hx c (List.mem_append_right _ hc)
  have unseen := List.find?_some h
  refine .unreachable (List.mem_of_find?_eq_some h) ?_
  rw [← Walk.mem_seen_start succs_listed entry]
  simpa using unseen

/-- Where validation stops, a rule is broken. -/
theorem violates_of_malformedAt (h : g.malformedAt? = some b) : g.Violates b := by
  simp only [malformedAt?, Option.orElse_eq_orElse, Option.orElse_eq_or,
    Option.or_eq_some_iff] at h
  rcases h with twice | ⟨-, missing | ⟨entry, stray | ⟨closed, rest⟩⟩⟩
  · obtain ⟨-, before | twice⟩ := duplicate_of_firstRepeat twice
    · cases before
    · exact .repeated twice
  · split at missing
    · cases missing
    · rename_i hn
      cases missing
      exact .entry hn
  · exact violates_of_strayNeighbour stray
  · rcases rest with succ | ⟨-, pred | ⟨-, apart⟩⟩
    · exact violates_of_unansweredSucc closed succ
    · exact violates_of_unansweredPred closed pred
    · have listed : g.entry ∈ g.blocks := by
        by_contra hn
        simp [hn] at entry
      exact violates_of_unreachable listed closed apart

theorem WellFormed.not_violates (wf : g.WellFormed) : ¬ g.Violates b := by
  intro h
  cases h with
  | repeated twice => exact twice.not_nodup wf.nodup
  | entry missing => exact missing wf.entry_mem
  | stray listed edge missing => exact missing (wf.closed _ listed _ edge)
  | oneSidedSucc listed other edge unknown => exact unknown ((wf.agree _ listed _ other).mp edge)
  | oneSidedPred listed other edge unknown => exact unknown ((wf.agree _ other _ listed).mpr edge)
  | unreachable listed apart => exact apart (wf.reached _ listed)

theorem malformedAt?_eq_none_iff : g.malformedAt? = none ↔ g.WellFormed := by
  refine ⟨wellFormed_of_malformedAt, ?_⟩
  intro wf
  rw [Option.eq_none_iff_forall_ne_some]
  intro b h
  exact wf.not_violates (violates_of_malformedAt h)

/-! ## The reverse postorder -/

theorem badStep?_eq_none_iff {seen bs : List BlockId} :
    g.badStep? seen bs = none ↔ bs.Nodup ∧ ∀ b ∈ bs, b ∈ g.blocks ∧ b ∉ seen := by
  induction bs generalizing seen with
  | nil => simp [badStep?]
  | cons b bs ih =>
    rw [badStep?]
    split
    · rename_i bad
      refine iff_of_false (by simp) ?_
      rintro ⟨-, good⟩
      obtain ⟨listed, new⟩ := good b List.mem_cons_self
      exact bad.elim (fun missing => missing listed) new
    · rename_i good
      simp only [not_or, not_not] at good
      rw [ih, List.nodup_cons, List.forall_mem_cons]
      constructor
      · rintro ⟨nodup, rest⟩
        refine ⟨⟨fun hb => (rest b hb).2 List.mem_cons_self, nodup⟩, good, ?_⟩
        intro c hc
        exact ⟨(rest c hc).1, fun hs => (rest c hc).2 (List.mem_cons_of_mem b hs)⟩
      · rintro ⟨⟨hb, nodup⟩, -, rest⟩
        refine ⟨nodup, ?_⟩
        intro c hc
        refine ⟨(rest c hc).1, ?_⟩
        rintro hs
        rcases List.mem_cons.mp hs with rfl | hs
        · exact hb hc
        · exact (rest c hc).2 hs

/-- An order is sound if it lists the blocks in another order, the entry first. -/
theorem badOrderAt?_eq_none_iff (nodup : g.blocks.Nodup) :
    g.badOrderAt? = none ↔ g.rpo.Perm g.blocks ∧ g.rpo.head? = some g.entry := by
  have first : (if g.rpo.head? = some g.entry then none else some g.entry) = none ↔
      g.rpo.head? = some g.entry := by
    simp
  simp only [badOrderAt?, Option.orElse_eq_orElse, Option.orElse_eq_or, Option.or_eq_none_iff,
    first, badStep?_eq_none_iff, List.find?_eq_none, decide_eq_true_eq, not_not]
  constructor
  · rintro ⟨⟨order_nodup, listed⟩, covers, head⟩
    refine ⟨(List.perm_ext_iff_of_nodup order_nodup nodup).mpr ?_, head⟩
    intro b
    exact ⟨fun hb => (listed b hb).1, covers b⟩
  · rintro ⟨perm, head⟩
    refine ⟨⟨perm.nodup_iff.mpr nodup, ?_⟩, ?_, head⟩
    · intro b hb
      exact ⟨perm.mem_iff.mp hb, List.not_mem_nil⟩
    · intro b hb
      exact perm.mem_iff.mpr hb

theorem denseOrder_ok_iff (nodup : g.blocks.Nodup) :
    (∃ order, g.denseOrder = .ok order) ↔
      g.rpo.Perm g.blocks ∧ g.rpo.head? = some g.entry := by
  rw [← badOrderAt?_eq_none_iff nodup]
  unfold denseOrder
  cases g.badOrderAt? <;> simp

/-! ## Positions stand for blocks -/

theorem map_positions {bs : List BlockId} (h : ∀ b ∈ bs, b ∈ g.blocks) :
    (g.positions bs).map g.blocks.get = bs := by
  induction bs with
  | nil => rfl
  | cons b bs ih =>
    obtain ⟨i, hi⟩ : ∃ i, g.blocks.finIdxOf? b = some i := by
      rw [← Option.isSome_iff_exists, List.isSome_finIdxOf?]
      simpa using h b List.mem_cons_self
    have at_b : g.blocks.get i = b := (List.finIdxOf?_eq_some_iff.mp hi).1
    have rest := ih fun c hc => h c (List.mem_cons_of_mem b hc)
    unfold positions at rest ⊢
    rw [List.filterMap_cons_some hi, List.map_cons, at_b, rest]

end FlowGraph

namespace DenseGraph

variable {g : FlowGraph} {d : DenseGraph}

/-- The validated graph is the given one, with positions in place of blocks: the
edge lists have the same entries in the same order. -/
structure Describes (d : DenseGraph) (g : FlowGraph) : Prop where
  blocks_eq : d.blocks = g.blocks
  position_iff : ∀ b i, d.position? b = some i ↔ d.block i = b
  entry_eq : d.block d.shape.entry = g.entry
  preds_eq : ∀ i, (d.shape.preds.get i).map d.block = g.preds (d.block i)
  succs_eq : ∀ i, (d.shape.succs.get i).map d.block = g.succs (d.block i)
  order_eq : ∀ order, d.rpo = .ok order → order.map d.block = g.rpo

theorem describes_of_accepted (h : ofFlowGraph g = .ok d) : d.Describes g := by
  obtain ⟨wf, entry, he, rfl⟩ := ofFlowGraph_cases h
  constructor
  · rfl
  · intro b i
    constructor
    · intro hb
      exact (List.finIdxOf?_eq_some_iff.mp hb).1
    · rintro rfl
      refine List.finIdxOf?_eq_some_iff.mpr ⟨rfl, ?_⟩
      intro j hj hne
      have := (List.Nodup.getElem_inj_iff wf.nodup).mp hne
      omega
  · exact he
  · intro i
    rw [preds_denseShape]
    apply FlowGraph.map_positions
    intro c hc
    exact wf.closed _ (List.get_mem _ i) c (List.mem_append_left _ hc)
  · intro i
    rw [succs_denseShape]
    apply FlowGraph.map_positions
    intro c hc
    exact wf.closed _ (List.get_mem _ i) c (List.mem_append_right _ hc)
  · intro order ho
    have usable := (FlowGraph.denseOrder_ok_iff wf.nodup).mp ⟨order, ho⟩
    simp only [FlowGraph.denseOrder] at ho
    split at ho
    · cases ho
    · cases ho
      apply FlowGraph.map_positions
      intro c hc
      exact usable.1.mem_iff.mp hc

theorem accepted_iff : (∃ d, ofFlowGraph g = .ok d) ↔ g.WellFormed := by
  constructor
  · rintro ⟨d, h⟩
    exact (ofFlowGraph_cases h).1
  · intro wf
    obtain ⟨entry, he⟩ : ∃ i, g.blocks.finIdxOf? g.entry = some i := by
      rw [← Option.isSome_iff_exists, List.isSome_finIdxOf?]
      simpa using wf.entry_mem
    exact ⟨⟨g.blocks, g.denseShape entry, g.denseOrder⟩, by
      rw [ofFlowGraph, FlowGraph.malformedAt?_eq_none_iff.mpr wf, he]⟩

theorem violates_of_rejected {e : AnalysisError} (h : ofFlowGraph g = .error e) :
    ∃ b, e = .malformed b ∧ g.Violates b := by
  unfold ofFlowGraph at h
  split at h
  · rename_i b hm
    cases h
    exact ⟨b, rfl, FlowGraph.violates_of_malformedAt hm⟩
  · rename_i hm hn
    cases h
    have wf := FlowGraph.malformedAt?_eq_none_iff.mp hm
    exact absurd wf.entry_mem (by simpa using hn)
  · cases h

end DenseGraph

/-- **Exactly the well-formed graphs are accepted.** A graph that is rejected breaks
a rule at the block that the error names. One that is accepted comes back as it
was, over positions, and its reverse postorder can be used exactly if it lists the
blocks in another order with the entry first. -/
theorem accepts_exactly_well_formed (g : FlowGraph) :
    ((∃ d, DenseGraph.ofFlowGraph g = .ok d) ↔ g.WellFormed) ∧
    (∀ e, DenseGraph.ofFlowGraph g = .error e → ∃ b, e = .malformed b ∧ g.Violates b) ∧
    (∀ d, DenseGraph.ofFlowGraph g = .ok d → d.Describes g ∧
      ((∃ order, d.rpo = .ok order) ↔ g.rpo.Perm g.blocks ∧ g.rpo.head? = some g.entry)) := by
  refine ⟨DenseGraph.accepted_iff, fun e => DenseGraph.violates_of_rejected, ?_⟩
  intro d h
  refine ⟨DenseGraph.describes_of_accepted h, ?_⟩
  obtain ⟨wf, entry, -, rfl⟩ := DenseGraph.ofFlowGraph_cases h
  exact FlowGraph.denseOrder_ok_iff wf.nodup

/-- Two blocks that enter each other, both entered from the entry. -/
def twins (rpo : List BlockId) (entersFirst : List BlockId) : FlowGraph := GraphTable.toFlowGraph {
  entry := ⟨5⟩, blocks := [⟨9⟩, ⟨5⟩, ⟨7⟩], rpo
  preds := [(⟨7⟩, entersFirst), (⟨9⟩, [⟨5⟩, ⟨7⟩])]
  succs := [(⟨5⟩, [⟨7⟩, ⟨9⟩]), (⟨7⟩, [⟨9⟩]), (⟨9⟩, [⟨7⟩])] }

/-- An order that leaves a block out does not keep the graph from being accepted; an
edge that one end does not know does. -/
theorem twins_judged :
    (∃ d, DenseGraph.ofFlowGraph (twins [⟨5⟩, ⟨7⟩] [⟨5⟩, ⟨9⟩]) = .ok d ∧
      d.Describes (twins [⟨5⟩, ⟨7⟩] [⟨5⟩, ⟨9⟩]) ∧ ¬ ∃ order, d.rpo = .ok order) ∧
    (∃ d, DenseGraph.ofFlowGraph (twins [⟨5⟩, ⟨9⟩, ⟨7⟩] [⟨5⟩, ⟨9⟩]) = .ok d ∧
      ∃ order, d.rpo = .ok order) ∧
    (DenseGraph.ofFlowGraph (twins [⟨5⟩, ⟨9⟩, ⟨7⟩] [⟨5⟩]) = .error (.malformed ⟨9⟩) ∧
      (twins [⟨5⟩, ⟨9⟩, ⟨7⟩] [⟨5⟩]).Violates ⟨9⟩) := by
  have sound (rpo : List BlockId) : (twins rpo [⟨5⟩, ⟨9⟩]).WellFormed :=
    FlowGraph.malformedAt?_eq_none_iff.mp
      (show (twins [] [⟨5⟩, ⟨9⟩]).malformedAt? = none by decide)
  refine ⟨?_, ?_, ?_⟩
  · obtain ⟨accepted, -, meaning⟩ := accepts_exactly_well_formed (twins [⟨5⟩, ⟨7⟩] [⟨5⟩, ⟨9⟩])
    obtain ⟨d, hd⟩ := accepted.mpr (sound _)
    obtain ⟨describes, usable⟩ := meaning d hd
    refine ⟨d, hd, describes, ?_⟩
    rw [usable]
    decide
  · obtain ⟨accepted, -, meaning⟩ :=
      accepts_exactly_well_formed (twins [⟨5⟩, ⟨9⟩, ⟨7⟩] [⟨5⟩, ⟨9⟩])
    obtain ⟨d, hd⟩ := accepted.mpr (sound _)
    exact ⟨d, hd, (meaning d hd).2.mpr (by decide)⟩
  · obtain ⟨-, rejected, -⟩ := accepts_exactly_well_formed (twins [⟨5⟩, ⟨9⟩, ⟨7⟩] [⟨5⟩])
    have stops : (twins [⟨5⟩, ⟨9⟩, ⟨7⟩] [⟨5⟩]).malformedAt? = some ⟨9⟩ := by decide
    have refused : DenseGraph.ofFlowGraph (twins [⟨5⟩, ⟨9⟩, ⟨7⟩] [⟨5⟩]) =
        .error (.malformed ⟨9⟩) := by
      simp only [DenseGraph.ofFlowGraph, stops]
    obtain ⟨b, hb, violates⟩ := rejected _ refused
    cases hb
    exact ⟨refused, violates⟩

end MemFlow

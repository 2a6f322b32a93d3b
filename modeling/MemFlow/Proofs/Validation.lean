import Mathlib.Data.List.Nodup
import Mathlib.Logic.Relation
import MemFlow.DenseGraph

/-!
# What an accepted graph is

A graph that passes validation lists its blocks once each, both ends of every
edge know it, and every block can be reached from the entry. Its shape over
positions has the same edges, and a usable reverse postorder visits every
position.
-/

namespace MemFlow

/-! ## Walks stay within reach -/

namespace Walk

variable {α : Type} [DecidableEq α] {succs : α → List α}

def Leads (succs : α → List α) : α → α → Prop := Relation.ReflTransGen fun a b => b ∈ succs a

theorem mem_seen_foldl {fuel : Nat} {vs : List α}
    (ih : ∀ w v x, x ∈ (visit succs fuel w v).seen → x ∈ w.seen ∨ Leads succs v x)
    {w : Walk α} {x : α} (h : x ∈ (vs.foldl (visit succs fuel) w).seen) :
    x ∈ w.seen ∨ ∃ v ∈ vs, Leads succs v x := by
  induction vs generalizing w with
  | nil => exact Or.inl h
  | cons v vs ihvs =>
    rcases ihvs h with h | ⟨u, hu, hl⟩
    · rcases ih w v x h with h | hl
      · exact Or.inl h
      · exact Or.inr ⟨v, List.mem_cons_self, hl⟩
    · exact Or.inr ⟨u, List.mem_cons_of_mem _ hu, hl⟩

theorem mem_seen_visit (fuel : Nat) (w : Walk α) (v x : α)
    (h : x ∈ (visit succs fuel w v).seen) : x ∈ w.seen ∨ Leads succs v x := by
  induction fuel generalizing w v x with
  | zero => exact Or.inl h
  | succ fuel ih =>
    simp only [visit] at h
    split at h
    · exact Or.inl h
    · rcases mem_seen_foldl ih h with h | ⟨c, hc, hl⟩
      · rcases List.mem_cons.mp h with rfl | h
        · exact Or.inr .refl
        · exact Or.inl h
      · exact Or.inr (.head hc hl)

theorem leads_of_mem_seen {size : Nat} {root x : α} (h : x ∈ (start succs size root).seen) :
    Leads succs root x := by
  rcases mem_seen_visit size {} root x h with h | h
  · cases h
  · exact h

end Walk

/-! ## Accepted graphs -/

/-- The parts of a graph agree with each other. -/
structure FlowGraph.WellFormed (g : FlowGraph) : Prop where
  nodup : g.blocks.Nodup
  entry_mem : g.entry ∈ g.blocks
  closed : ∀ b ∈ g.blocks, ∀ c ∈ g.preds b ++ g.succs b, c ∈ g.blocks
  agree : ∀ u ∈ g.blocks, ∀ v ∈ g.blocks, v ∈ g.succs u ↔ u ∈ g.preds v
  reached : ∀ b ∈ g.blocks, Walk.Leads g.succs g.entry b

theorem nodup_of_firstRepeat {α : Type} [DecidableEq α] {seen as : List α}
    (h : firstRepeat seen as = none) : as.Nodup ∧ ∀ a ∈ as, a ∉ seen := by
  induction as generalizing seen with
  | nil => exact ⟨List.nodup_nil, fun _ h => by cases h⟩
  | cons a as ih =>
    simp only [firstRepeat] at h
    split at h
    · cases h
    · rename_i hseen
      obtain ⟨nodup, fresh⟩ := ih h
      refine ⟨List.nodup_cons.mpr ⟨fun ha => fresh a ha List.mem_cons_self, nodup⟩, ?_⟩
      intro b hb
      rcases List.mem_cons.mp hb with rfl | hb
      · exact hseen
      · exact fun hs => fresh b hb (List.mem_cons_of_mem _ hs)

namespace FlowGraph

theorem closed_of_strayNeighbour {g : FlowGraph} (h : g.strayNeighbour? = none) :
    ∀ b ∈ g.blocks, ∀ c ∈ g.preds b ++ g.succs b, c ∈ g.blocks := by
  intro b hb c hc
  have hf := List.find?_eq_none.mp (List.findSome?_eq_none_iff.mp h b hb) c hc
  simpa using hf

theorem wellFormed_of_malformedAt {g : FlowGraph} (h : g.malformedAt? = none) :
    g.WellFormed := by
  simp only [malformedAt?, Option.orElse_eq_orElse, Option.orElse_eq_or,
    Option.or_eq_none_iff] at h
  obtain ⟨repeats, entry, stray, succ, pred, unreached⟩ := h
  have entry_mem : g.entry ∈ g.blocks := by
    by_contra hne
    simp [hne] at entry
  refine ⟨(nodup_of_firstRepeat repeats).1, entry_mem, closed_of_strayNeighbour stray, ?_, ?_⟩
  · intro u hu v hv
    constructor
    · intro hs
      have hf := List.find?_eq_none.mp succ u hu
      simp only [List.any_eq_true, decide_eq_true_eq, not_exists, not_and, not_not] at hf
      exact hf v hs
    · intro hp
      have hf := List.find?_eq_none.mp pred v hv
      simp only [List.any_eq_true, decide_eq_true_eq, not_exists, not_and, not_not] at hf
      exact hf u hp
  · intro b hb
    have hf := List.find?_eq_none.mp unreached b hb
    simp only [decide_eq_true_eq, not_not] at hf
    exact Walk.leads_of_mem_seen hf

theorem WellFormed.succ_mem {g : FlowGraph} (wf : g.WellFormed) {b c : BlockId}
    (hb : b ∈ g.blocks) (hc : c ∈ g.succs b) : c ∈ g.blocks :=
  wf.closed b hb c (List.mem_append_right _ hc)

theorem mem_positions {g : FlowGraph} (wf : g.WellFormed) {bs : List BlockId}
    {i : Fin g.blocks.length} : i ∈ g.positions bs ↔ g.blocks.get i ∈ bs := by
  simp only [positions, List.mem_filterMap, List.finIdxOf?_eq_some_iff]
  constructor
  · rintro ⟨b, hb, rfl, -⟩
    exact hb
  · intro hb
    refine ⟨g.blocks.get i, hb, rfl, ?_⟩
    intro j hj he
    have := (List.Nodup.getElem_inj_iff wf.nodup).mp he
    omega

end FlowGraph

/-! ## The shape over positions -/

namespace Shape

variable {n : Nat}

/-- A shape whose two edge lists describe one graph, all of it within reach of
the entry. -/
structure Sound (s : Shape n) : Prop where
  agree : ∀ p b : Fin n, p ∈ s.preds.get b ↔ b ∈ s.succs.get p
  reached : ∀ b, Relation.ReflTransGen (fun p b => p ∈ s.preds.get b) s.entry b

theorem Sound.preds_ne_nil {s : Shape n} (hs : s.Sound) {b : Fin n} (hb : b ≠ s.entry) :
    s.preds.get b ≠ [] := by
  rcases (hs.reached b).cases_tail with he | ⟨p, -, hp⟩
  · exact absurd he hb
  · exact List.ne_nil_of_mem hp

end Shape

namespace DenseGraph

theorem ofFlowGraph_cases {g : FlowGraph} {d : DenseGraph} (h : ofFlowGraph g = .ok d) :
    g.WellFormed ∧ ∃ entry : Fin g.blocks.length, g.blocks.get entry = g.entry ∧
      d = ⟨g.blocks, g.denseShape entry, g.denseOrder⟩ := by
  unfold ofFlowGraph at h
  split at h
  · cases h
  · cases h
  · rename_i entry hm he
    cases h
    exact ⟨FlowGraph.wellFormed_of_malformedAt hm, entry, (List.finIdxOf?_eq_some_iff.mp he).1, rfl⟩

theorem preds_denseShape {g : FlowGraph} (entry i : Fin g.blocks.length) :
    (g.denseShape entry).preds.get i = g.positions (g.preds (g.blocks.get i)) :=
  Vector.getElem_ofFn i.isLt

theorem succs_denseShape {g : FlowGraph} (entry i : Fin g.blocks.length) :
    (g.denseShape entry).succs.get i = g.positions (g.succs (g.blocks.get i)) :=
  Vector.getElem_ofFn i.isLt

theorem mem_preds_denseShape {g : FlowGraph} (wf : g.WellFormed)
    (entry i j : Fin g.blocks.length) :
    j ∈ (g.denseShape entry).preds.get i ↔ g.blocks.get i ∈ g.succs (g.blocks.get j) := by
  rw [wf.agree (g.blocks.get j) (List.get_mem _ _) (g.blocks.get i) (List.get_mem _ _),
    preds_denseShape, FlowGraph.mem_positions wf]

theorem mem_succs_denseShape {g : FlowGraph} (wf : g.WellFormed)
    (entry i j : Fin g.blocks.length) :
    j ∈ (g.denseShape entry).succs.get i ↔ g.blocks.get j ∈ g.succs (g.blocks.get i) := by
  rw [succs_denseShape, FlowGraph.mem_positions wf]

theorem reached_denseShape {g : FlowGraph} (wf : g.WellFormed) {entry : Fin g.blocks.length}
    (he : g.blocks.get entry = g.entry) {b : BlockId} (h : Walk.Leads g.succs g.entry b) :
    ∃ i : Fin g.blocks.length, g.blocks.get i = b ∧
      Relation.ReflTransGen (fun p b => p ∈ (g.denseShape entry).preds.get b) entry i := by
  induction h with
  | refl => exact ⟨entry, he, .refl⟩
  | @tail c b _ hb ih =>
    obtain ⟨i, rfl, hi⟩ := ih
    have hmem := wf.succ_mem (List.get_mem _ _) hb
    obtain ⟨j, rfl⟩ := List.get_of_mem hmem
    exact ⟨j, rfl, hi.tail ((mem_preds_denseShape wf entry j i).mpr hb)⟩

theorem sound_denseShape {g : FlowGraph} (wf : g.WellFormed) {entry : Fin g.blocks.length}
    (he : g.blocks.get entry = g.entry) : (g.denseShape entry).Sound := by
  constructor
  · intro p b
    exact (mem_preds_denseShape wf entry b p).trans (mem_succs_denseShape wf entry p b).symm
  · intro b
    obtain ⟨i, hi, hr⟩ := reached_denseShape wf he (wf.reached (g.blocks.get b) (List.get_mem _ _))
    have : i = b := Fin.ext ((List.Nodup.getElem_inj_iff wf.nodup).mp hi)
    exact this ▸ hr

/-- **An accepted graph has a sound shape.** -/
theorem sound_of_accepted {g : FlowGraph} {d : DenseGraph} (h : ofFlowGraph g = .ok d) :
    d.shape.Sound := by
  obtain ⟨wf, entry, he, rfl⟩ := ofFlowGraph_cases h
  exact sound_denseShape wf he

theorem mem_order {g : FlowGraph} {d : DenseGraph} (h : ofFlowGraph g = .ok d)
    {order : List (Fin d.size)} (ho : d.rpo = .ok order) (b : Fin d.size) : b ∈ order := by
  obtain ⟨wf, entry, -, rfl⟩ := ofFlowGraph_cases h
  simp only [FlowGraph.denseOrder] at ho
  split at ho
  · cases ho
  · rename_i hbad
    cases ho
    simp only [FlowGraph.badOrderAt?, Option.orElse_eq_orElse, Option.orElse_eq_or,
      Option.or_eq_none_iff] at hbad
    have hf := List.find?_eq_none.mp hbad.2.1 (g.blocks.get b) (List.get_mem _ _)
    simp only [decide_eq_true_eq, not_not] at hf
    exact (FlowGraph.mem_positions wf).mpr hf

end DenseGraph

end MemFlow

import Mathlib.Data.List.Chain
import MemFlow.Proofs.Solutions

/-!
# Solutions along paths

Whatever a problem tracks begins at some statements and is ended by others. If
the effects of blocks say so (`Tracks`), the least solution of a union holds at
a block what lasts along some path there, and the greatest solution of an
intersection what lasts along every path from the entry.
-/

namespace MemFlow

/-! ## Statements in a row -/

/-- Something begins at a statement of the list and no later one ends it. -/
def Lasts (gen kill : StmtId → Prop) (ss : List StmtId) : Prop :=
  ∃ pre s post, ss = pre ++ s :: post ∧ gen s ∧ ∀ t ∈ post, ¬ kill t

section
variable {gen kill : StmtId → Prop}

theorem not_lasts_nil : ¬ Lasts gen kill [] := by
  rintro ⟨pre, s, post, h, -⟩
  simp at h

theorem lasts_cons {s : StmtId} {ss : List StmtId} :
    Lasts gen kill (s :: ss) ↔ (gen s ∧ ∀ t ∈ ss, ¬ kill t) ∨ Lasts gen kill ss := by
  constructor
  · rintro ⟨pre, u, post, h, hg, hk⟩
    cases pre with
    | nil =>
      obtain ⟨rfl, rfl⟩ := List.cons.inj h
      exact Or.inl ⟨hg, hk⟩
    | cons p pre => exact Or.inr ⟨pre, u, post, (List.cons.inj h).2, hg, hk⟩
  · rintro (⟨hg, hk⟩ | ⟨pre, u, post, rfl, hg, hk⟩)
    · exact ⟨[], s, ss, rfl, hg, hk⟩
    · exact ⟨s :: pre, u, post, rfl, hg, hk⟩

theorem Lasts.imp {gen' kill' : StmtId → Prop} {ss : List StmtId}
    (hg : ∀ s ∈ ss, gen s → gen' s) (hk : ∀ s ∈ ss, kill' s → kill s) (h : Lasts gen kill ss) :
    Lasts gen' kill' ss := by
  obtain ⟨pre, s, post, rfl, hs, kept⟩ := h
  refine ⟨pre, s, post, rfl, hg s (by simp) hs, ?_⟩
  intro t ht killed
  exact kept t ht (hk t (by simp [ht]) killed)

theorem Lasts.mono {gen' kill' : StmtId → Prop} (hg : ∀ s, gen s → gen' s)
    (hk : ∀ s, kill' s → kill s) {ss : List StmtId} (h : Lasts gen kill ss) :
    Lasts gen' kill' ss := h.imp (fun s _ => hg s) (fun s _ => hk s)

theorem lasts_append {ss ts : List StmtId} :
    Lasts gen kill (ss ++ ts) ↔
      Lasts gen kill ts ∨ (Lasts gen kill ss ∧ ∀ t ∈ ts, ¬ kill t) := by
  induction ss with
  | nil => simp [not_lasts_nil]
  | cons s ss ih =>
    rw [List.cons_append, lasts_cons, ih, lasts_cons, List.forall_mem_append]
    tauto

end

/-! ## Paths of blocks -/

namespace FlowGraph

/-- Blocks of the graph, each a successor of the one before. -/
def IsPath (g : FlowGraph) (qs : List BlockId) : Prop :=
  (∀ q ∈ qs, q ∈ g.blocks) ∧ qs.IsChain fun p q => q ∈ g.succs p

/-- A path from the entry. -/
def IsRun (g : FlowGraph) (qs : List BlockId) : Prop := g.IsPath qs ∧ qs.head? = some g.entry

def along (g : FlowGraph) (qs : List BlockId) : List StmtId := qs.flatMap g.stmts

variable {g : FlowGraph}

@[simp] theorem along_nil : g.along [] = [] := rfl

@[simp] theorem along_cons {q : BlockId} {qs : List BlockId} :
    g.along (q :: qs) = g.stmts q ++ g.along qs := rfl

@[simp] theorem along_append {qs rs : List BlockId} :
    g.along (qs ++ rs) = g.along qs ++ g.along rs := List.flatMap_append

theorem isPath_singleton {b : BlockId} (hb : b ∈ g.blocks) : g.IsPath [b] :=
  ⟨by simpa using hb, .singleton b⟩

theorem isPath_snoc (wf : g.WellFormed) {qs : List BlockId} {p b : BlockId} :
    g.IsPath (qs ++ [p] ++ [b]) ↔ g.IsPath (qs ++ [p]) ∧ b ∈ g.succs p := by
  constructor
  · rintro ⟨hm, hc⟩
    have hs : b ∈ g.succs p := by
      rw [List.append_assoc] at hc
      exact (List.isChain_append_cons_cons.mp hc).2.1
    exact ⟨⟨fun q hq => hm q (List.mem_append_left _ hq), hc.left_of_append⟩, hs⟩
  · rintro ⟨⟨hm, hc⟩, hs⟩
    have hb : b ∈ g.blocks := wf.succ_mem (hm p (by simp)) hs
    refine ⟨?_, ?_⟩
    · intro q hq
      rcases List.mem_append.mp hq with hq | hq
      · exact hm q hq
      · exact List.mem_singleton.mp hq ▸ hb
    · rw [List.append_assoc]
      exact List.isChain_append_cons_cons.mpr ⟨hc, hs, .singleton b⟩

theorem isRun_snoc (wf : g.WellFormed) {qs : List BlockId} {p b : BlockId} :
    g.IsRun (qs ++ [p] ++ [b]) ↔ g.IsRun (qs ++ [p]) ∧ b ∈ g.succs p := by
  have head : (qs ++ [p] ++ [b]).head? = (qs ++ [p]).head? := by cases qs <;> rfl
  rw [IsRun, IsRun, isPath_snoc wf, head]
  tauto

theorem isRun_singleton (wf : g.WellFormed) {b : BlockId} : g.IsRun [b] ↔ b = g.entry := by
  constructor
  · intro h
    simpa using h.2
  · rintro rfl
    exact ⟨isPath_singleton wf.entry_mem, rfl⟩

theorem IsPath.last_mem {qs : List BlockId} {b : BlockId} (h : g.IsPath (qs ++ [b])) :
    b ∈ g.blocks := h.1 b (by simp)

theorem exists_isRun (wf : g.WellFormed) {b : BlockId} (hb : b ∈ g.blocks) :
    ∃ qs, g.IsRun (qs ++ [b]) := by
  -- Validation walked from the entry to the block.
  have leads := wf.reached b hb
  clear hb
  induction leads with
  | refl => exact ⟨[], (isRun_singleton wf).mpr rfl⟩
  | @tail p c _ hc ih =>
    obtain ⟨qs, h⟩ := ih
    exact ⟨qs ++ [p], (isRun_snoc wf).mpr ⟨h, hc⟩⟩

theorem IsPath.of_append {ps qs : List BlockId} (h : g.IsPath (ps ++ qs)) : g.IsPath qs :=
  ⟨fun q hq => h.1 q (List.mem_append_right _ hq), h.2.right_of_append⟩

theorem lasts_along {gen kill : StmtId → Prop} {qs : List BlockId} :
    Lasts gen kill (g.along qs) ↔ ∃ before q rest, qs = before ++ q :: rest ∧
      Lasts gen kill (g.stmts q) ∧ ∀ t ∈ g.along rest, ¬ kill t := by
  induction qs with
  | nil => simp [not_lasts_nil]
  | cons p qs ih =>
    rw [along_cons, lasts_append, ih]
    constructor
    · rintro (⟨before, q, rest, rfl, h⟩ | h)
      · exact ⟨p :: before, q, rest, rfl, h⟩
      · exact ⟨[], p, qs, rfl, h⟩
    · rintro ⟨before, q, rest, he, h⟩
      cases before with
      | nil =>
        obtain ⟨rfl, rfl⟩ := List.cons.inj he
        exact Or.inr h
      | cons c before => exact Or.inl ⟨before, q, rest, (List.cons.inj he).2, h⟩

end FlowGraph

/-! ## Equations that track statements -/

/-- The equations are about the blocks of the graph, where `v` begins at the
statements `gen v` and is ended by the statements `kill v`. -/
structure Tracks (g : FlowGraph) (eq : Equations g.blocks.length)
    (gen kill : Nat → StmtId → Prop) : Prop where
  gen_iff : ∀ (i : Fin g.blocks.length) (v : Nat),
    v ∈ eq.gen.get i ↔ Lasts (gen v) (kill v) (g.stmts (g.blocks.get i))
  kill_iff : ∀ (i : Fin g.blocks.length) (v : Nat),
    v ∈ eq.kill.get i ↔ ∃ s ∈ g.stmts (g.blocks.get i), kill v s

namespace Tracks

open Equations

variable {g : FlowGraph} {eq : Equations g.blocks.length} {gen kill : Nat → StmtId → Prop}
  {entry : Fin g.blocks.length}

theorem mem_image_iff (tr : Tracks g eq gen kill) (shape : Shape g.blocks.length)
    (X : Fin g.blocks.length → Set Nat) (i : Fin g.blocks.length) (v : Nat) :
    v ∈ eq.image shape X i ↔ Lasts (gen v) (kill v) (g.stmts (g.blocks.get i)) ∨
      (v ∈ eq.joined shape X i ∧ ∀ s ∈ g.stmts (g.blocks.get i), ¬ kill v s) := by
  have hk : v ∉ eq.kill.get i ↔ ∀ s ∈ g.stmts (g.blocks.get i), ¬ kill v s := by
    rw [tr.kill_iff]
    simp
  rw [← tr.gen_iff, ← hk]
  exact Iff.rfl

/-- What lasts along some path into a block. -/
def arrivesIn (g : FlowGraph) (gen kill : Nat → StmtId → Prop) (b : BlockId) : Set Nat :=
  {v | ∃ qs, g.IsPath (qs ++ [b]) ∧ Lasts (gen v) (kill v) (g.along qs)}

/-- What lasts along some path into a block and through it. -/
def arrivesOut (g : FlowGraph) (gen kill : Nat → StmtId → Prop) (b : BlockId) : Set Nat :=
  {v | ∃ qs, g.IsPath (qs ++ [b]) ∧ Lasts (gen v) (kill v) (g.along (qs ++ [b]))}

/-- What lasts along every path from the entry into a block. -/
def staysIn (g : FlowGraph) (gen kill : Nat → StmtId → Prop) (b : BlockId) : Set Nat :=
  {v | ∀ qs, g.IsRun (qs ++ [b]) → Lasts (gen v) (kill v) (g.along qs)}

/-- What lasts along every path from the entry into a block and through it. -/
def staysOut (g : FlowGraph) (gen kill : Nat → StmtId → Prop) (b : BlockId) : Set Nat :=
  {v | ∀ qs, g.IsRun (qs ++ [b]) → Lasts (gen v) (kill v) (g.along (qs ++ [b]))}

/-! ### Some path -/

theorem mem_joined_union (wf : g.WellFormed) (hc : eq.confluence = .union)
    (X : Fin g.blocks.length → Set Nat) (i : Fin g.blocks.length) (v : Nat) :
    v ∈ eq.joined (g.denseShape entry) X i ↔
      ∃ j : Fin g.blocks.length, g.blocks.get i ∈ g.succs (g.blocks.get j) ∧ v ∈ X j := by
  simp only [joined, hc]
  exact exists_congr fun j => and_congr_left' (DenseGraph.mem_preds_denseShape wf entry i j)

theorem image_arrivesOut (wf : g.WellFormed) (tr : Tracks g eq gen kill)
    (hc : eq.confluence = .union) (i : Fin g.blocks.length) :
    eq.image (g.denseShape entry) (fun j => arrivesOut g gen kill (g.blocks.get j)) i ⊆
      arrivesOut g gen kill (g.blocks.get i) := by
  intro v hv
  rcases (tr.mem_image_iff _ _ i v).mp hv with hl | ⟨hj, hk⟩
  · exact ⟨[], FlowGraph.isPath_singleton (List.get_mem _ _), by simpa using hl⟩
  · obtain ⟨j, hs, qs, hp, hl⟩ := (mem_joined_union wf hc _ i v).mp hj
    refine ⟨qs ++ [g.blocks.get j], (FlowGraph.isPath_snoc wf).mpr ⟨hp, hs⟩, ?_⟩
    rw [FlowGraph.along_append]
    exact lasts_append.mpr (Or.inr ⟨hl, by simpa using hk⟩)

/-- What arrives along a path is in every solution of a union: each block of the
path hands it on. -/
theorem mem_of_arrivesOut (wf : g.WellFormed) (tr : Tracks g eq gen kill)
    (hc : eq.confluence = .union) {outs : Vector IdSet g.blocks.length}
    (settled : ∀ i, eq.Settled (g.denseShape entry) outs i) {v : Nat}
    (qs : List BlockId) (i : Fin g.blocks.length) (hp : g.IsPath (qs ++ [g.blocks.get i]))
    (hl : Lasts (gen v) (kill v) (g.along (qs ++ [g.blocks.get i]))) : v ∈ outs.get i := by
  induction qs using List.reverseRecOn generalizing i with
  | nil =>
    have : v ∈ view outs i := by
      rw [← image_of_settled settled i, tr.mem_image_iff]
      exact Or.inl (by simpa using hl)
    exact this
  | append_singleton qs p ih =>
    obtain ⟨hp', hs⟩ := (FlowGraph.isPath_snoc wf).mp hp
    obtain ⟨j, rfl⟩ := List.get_of_mem hp'.last_mem
    have : v ∈ view outs i := by
      rw [← image_of_settled settled i, tr.mem_image_iff]
      rw [FlowGraph.along_append, lasts_append] at hl
      rcases hl with hl | ⟨hl, hk⟩
      · exact Or.inl (by simpa using hl)
      · exact Or.inr ⟨(mem_joined_union wf hc _ i v).mpr ⟨j, hs, ih j hp' hl⟩, by simpa using hk⟩
    exact this

/-- **A union finds what arrives along some path.** -/
theorem mem_fixed_union (wf : g.WellFormed) (he : g.blocks.get entry = g.entry)
    (tr : Tracks g eq gen kill) (hc : eq.confluence = .union)
    (i : Fin g.blocks.length) (v : Nat) :
    v ∈ (eq.fixed (g.denseShape entry)).get i ↔ v ∈ arrivesOut g gen kill (g.blocks.get i) := by
  have hs := DenseGraph.sound_denseShape wf he
  have hg : eq.Grounded := fun h => by rw [hc] at h; cases h
  constructor
  · have bound := reached_toward hs hg (fixed_reached hg)
      (X := fun j => arrivesOut g gen kill (g.blocks.get j))
      (fun j => by rw [hc]; exact image_arrivesOut wf tr hc j) i
    rw [hc] at bound
    exact fun hv => bound hv
  · rintro ⟨qs, hp, hl⟩
    exact mem_of_arrivesOut wf tr hc (fixed_settled hs hg) qs i hp hl

theorem mem_insOf_union (wf : g.WellFormed) (he : g.blocks.get entry = g.entry)
    (tr : Tracks g eq gen kill) (hc : eq.confluence = .union)
    (i : Fin g.blocks.length) (v : Nat) :
    v ∈ (eq.insOf (g.denseShape entry) (eq.fixed (g.denseShape entry))).get i ↔
      v ∈ arrivesIn g gen kill (g.blocks.get i) := by
  rw [← IdSet.mem_members_iff, members_insOf, mem_joined_union wf hc]
  constructor
  · rintro ⟨j, hs, hv⟩
    obtain ⟨qs, hp, hl⟩ := (mem_fixed_union wf he tr hc j v).mp hv
    exact ⟨qs ++ [g.blocks.get j], (FlowGraph.isPath_snoc wf).mpr ⟨hp, hs⟩, hl⟩
  · rintro ⟨qs, hp, hl⟩
    rcases List.eq_nil_or_concat qs with rfl | ⟨qs, p, rfl⟩
    · exact absurd hl not_lasts_nil
    · rw [List.concat_eq_append] at hp hl
      obtain ⟨hp', hs⟩ := (FlowGraph.isPath_snoc wf).mp hp
      obtain ⟨j, rfl⟩ := List.get_of_mem hp'.last_mem
      exact ⟨j, hs, (mem_fixed_union wf he tr hc j v).mpr ⟨qs, hp', hl⟩⟩

/-! ### Every path -/

theorem mem_joined_inter (wf : g.WellFormed) (he : g.blocks.get entry = g.entry)
    (hc : eq.confluence = .inter) (X : Fin g.blocks.length → Set Nat)
    (i : Fin g.blocks.length) (v : Nat) :
    v ∈ eq.joined (g.denseShape entry) X i ↔ g.blocks.get i ≠ g.entry ∧
      ∀ j : Fin g.blocks.length, g.blocks.get i ∈ g.succs (g.blocks.get j) → v ∈ X j := by
  have entry_iff : i = (g.denseShape entry).entry ↔ g.blocks.get i = g.entry := by
    rw [← he]
    exact ⟨fun h => h ▸ rfl, fun h => Fin.ext ((List.Nodup.getElem_inj_iff wf.nodup).mp h)⟩
  simp only [joined, hc]
  constructor
  · rintro ⟨hi, -, hv⟩
    refine ⟨fun h => hi (entry_iff.mpr h), ?_⟩
    intro j hj
    exact hv j ((DenseGraph.mem_preds_denseShape wf entry i j).mpr hj)
  · rintro ⟨hi, hv⟩
    have hi' := fun h => hi (entry_iff.mp h)
    refine ⟨hi', (DenseGraph.sound_denseShape wf he).preds_ne_nil hi', ?_⟩
    intro j hj
    exact hv j ((DenseGraph.mem_preds_denseShape wf entry i j).mp hj)

theorem staysIn_iff (wf : g.WellFormed) (i : Fin g.blocks.length) (v : Nat) :
    v ∈ staysIn g gen kill (g.blocks.get i) ↔ g.blocks.get i ≠ g.entry ∧
      ∀ j : Fin g.blocks.length, g.blocks.get i ∈ g.succs (g.blocks.get j) →
        v ∈ staysOut g gen kill (g.blocks.get j) := by
  constructor
  · intro h
    refine ⟨?_, ?_⟩
    · intro hi
      exact not_lasts_nil (h [] ((FlowGraph.isRun_singleton wf).mpr hi))
    · intro j hs qs hr
      exact h (qs ++ [g.blocks.get j]) ((FlowGraph.isRun_snoc wf).mpr ⟨hr, hs⟩)
  · rintro ⟨hi, h⟩ qs hr
    rcases List.eq_nil_or_concat qs with rfl | ⟨qs, p, rfl⟩
    · exact absurd ((FlowGraph.isRun_singleton wf).mp hr) hi
    · rw [List.concat_eq_append] at hr ⊢
      obtain ⟨hr', hs⟩ := (FlowGraph.isRun_snoc wf).mp hr
      obtain ⟨j, rfl⟩ := List.get_of_mem hr'.1.last_mem
      exact h j hs qs hr'

/-- Staying is supported by a round. Every block ends some path from the entry,
so what stays through a block is begun in it or came in and was not ended. -/
theorem staysOut_subset_image (wf : g.WellFormed) (he : g.blocks.get entry = g.entry)
    (tr : Tracks g eq gen kill) (hc : eq.confluence = .inter) (i : Fin g.blocks.length) :
    staysOut g gen kill (g.blocks.get i) ⊆
      eq.image (g.denseShape entry) (fun j => staysOut g gen kill (g.blocks.get j)) i := by
  intro v hv
  rw [tr.mem_image_iff]
  by_cases hl : Lasts (gen v) (kill v) (g.stmts (g.blocks.get i))
  · exact Or.inl hl
  · -- Not begun here, it comes in on every path and is not ended here.
    have came : ∀ qs, g.IsRun (qs ++ [g.blocks.get i]) →
        Lasts (gen v) (kill v) (g.along qs) ∧ ∀ s ∈ g.stmts (g.blocks.get i), ¬ kill v s := by
      intro qs hr
      have through := hv qs hr
      rw [FlowGraph.along_append, lasts_append] at through
      rcases through with here | ⟨before, kept⟩
      · exact absurd (by simpa using here) hl
      · exact ⟨before, by simpa using kept⟩
    obtain ⟨qs, hr⟩ := FlowGraph.exists_isRun wf (List.get_mem _ i)
    refine Or.inr ⟨?_, (came qs hr).2⟩
    rw [mem_joined_inter wf he hc]
    exact (staysIn_iff wf i v).mp fun qs hr => (came qs hr).1

/-- What is in a solution of an intersection stays along every path from the
entry: each block of the path hands it on. -/
theorem lasts_of_mem (wf : g.WellFormed) (he : g.blocks.get entry = g.entry)
    (tr : Tracks g eq gen kill) (hc : eq.confluence = .inter)
    {outs : Vector IdSet g.blocks.length}
    (settled : ∀ i, eq.Settled (g.denseShape entry) outs i) {v : Nat}
    (qs : List BlockId) (i : Fin g.blocks.length) (hr : g.IsRun (qs ++ [g.blocks.get i]))
    (hv : v ∈ outs.get i) : Lasts (gen v) (kill v) (g.along (qs ++ [g.blocks.get i])) := by
  induction qs using List.reverseRecOn generalizing i with
  | nil =>
    have hi := (FlowGraph.isRun_singleton wf).mp hr
    have : v ∈ view outs i := hv
    rw [← image_of_settled settled i, tr.mem_image_iff, mem_joined_inter wf he hc] at this
    rcases this with hl | ⟨⟨hne, -⟩, -⟩
    · simpa using hl
    · exact absurd hi hne
  | append_singleton qs p ih =>
    obtain ⟨hr', hs⟩ := (FlowGraph.isRun_snoc wf).mp hr
    obtain ⟨j, rfl⟩ := List.get_of_mem hr'.1.last_mem
    rw [FlowGraph.along_append, lasts_append]
    have : v ∈ view outs i := hv
    rw [← image_of_settled settled i, tr.mem_image_iff, mem_joined_inter wf he hc] at this
    rcases this with hl | ⟨⟨-, hin⟩, hk⟩
    · exact Or.inl (by simpa using hl)
    · exact Or.inr ⟨ih j hr' (hin j hs), by simpa using hk⟩

/-- **An intersection finds what stays along every path from the entry.** -/
theorem mem_fixed_inter (wf : g.WellFormed) (he : g.blocks.get entry = g.entry)
    (tr : Tracks g eq gen kill) (hc : eq.confluence = .inter) (hg : eq.Grounded)
    (i : Fin g.blocks.length) (v : Nat) :
    v ∈ (eq.fixed (g.denseShape entry)).get i ↔ v ∈ staysOut g gen kill (g.blocks.get i) := by
  have hs := DenseGraph.sound_denseShape wf he
  constructor
  · intro hv qs hr
    exact lasts_of_mem wf he tr hc (fixed_settled hs hg) qs i hr hv
  · have bound := reached_toward hs hg (fixed_reached hg)
      (X := fun j => staysOut g gen kill (g.blocks.get j))
      (fun j => by rw [hc]; exact staysOut_subset_image wf he tr hc j) i
    rw [hc] at bound
    exact fun hv => bound hv

theorem mem_insOf_inter (wf : g.WellFormed) (he : g.blocks.get entry = g.entry)
    (tr : Tracks g eq gen kill) (hc : eq.confluence = .inter) (hg : eq.Grounded)
    (i : Fin g.blocks.length) (v : Nat) :
    v ∈ (eq.insOf (g.denseShape entry) (eq.fixed (g.denseShape entry))).get i ↔
      v ∈ staysIn g gen kill (g.blocks.get i) := by
  rw [← IdSet.mem_members_iff, members_insOf, mem_joined_inter wf he hc, staysIn_iff wf]
  refine and_congr_right fun _ => forall_congr' fun j => imp_congr_right fun _ => ?_
  exact mem_fixed_inter wf he tr hc hg j v

end Tracks

end MemFlow

import MemFlow.Proofs.ReversePostorder

/-!
# What a built graph keeps of its history

An edge is recorded at those of its ends that exist when it is added, and a statement in the
list of its block if the block exists by then. Validation compares the two ends of an edge, so
in an accepted graph an edge that was recorded at one end is recorded at both. It cannot see
what was recorded nowhere: an edge that was added only ahead of both its ends, and a statement
that was added ahead of its block, which keeps its number and its block and is in no list.
-/

namespace MemFlow

/-- The block that a step adds a statement to. -/
def BuildStep.stmtBlock? : BuildStep → Option BlockId
  | .addStmt b _ _ => some b
  | _ => none

namespace GraphBuilder

variable {c : GraphBuilder} {e : BuildStep} {steps : List BuildStep} {u v b : BlockId}
  {s : StmtId}

/-! ## What one step records -/

/-- What a step makes of a block that exists. -/
def updated (c : GraphBuilder) (b : BlockId) (block : Block) : BuildStep → Block
  | .addEdge u v =>
    { block with
      succs := if u = b then block.succs ++ [v] else block.succs
      preds := if v = b then block.preds ++ [u] else block.preds }
  | .addStmt u _ _ =>
    { block with stmts := if u = b then block.stmts ++ [⟨c.stmts.size⟩] else block.stmts }
  | _ => block

theorem block?_eq_none_iff : c.block? b = none ↔ b ∉ c.blockIds := by
  rw [block?, Array.getElem?_eq_none_iff, mem_blockIds]
  omega

theorem block?_addBlock :
    c.addBlock.block? b = if b.num = c.blocks.size then some {} else c.block? b := by
  simp only [addBlock, block?, Array.getElem?_push]

theorem block?_addEdge :
    (c.addEdge u v).block? b = (c.block? b).map (c.updated b · (.addEdge u v)) := by
  have same_num (x : BlockId) : x.num = b.num ↔ x = b := by grind [BlockId]
  simp only [addEdge, block?, Array.getElem?_modify, same_num]
  by_cases hu : u = b <;> by_cases hv : v = b <;> simp [hu, hv, updated, Function.comp_def]

theorem block?_addStmt (access : Option Access) (exprs : List ExprId) :
    (c.addStmt u access exprs).block? b =
      (c.block? b).map (c.updated b · (.addStmt u access exprs)) := by
  have same_num : u.num = b.num ↔ u = b := by grind [BlockId]
  simp only [addStmt, block?, Array.getElem?_modify, same_num]
  by_cases hu : u = b <;> simp [hu, updated]

/-- A list that starts empty grows only at a block that exists, and as the step says. -/
theorem elim_block?_step {α : Type} (f : Block → List α) (new : f {} = []) :
    ((c.step e).block? b).elim [] f =
      (c.block? b).elim [] fun block => f (c.updated b block e) := by
  cases e with
  | addBlock =>
    simp only [step, block?_addBlock]
    split
    · rename_i last
      have missing : c.block? b = none := Array.getElem?_eq_none (by omega)
      rw [missing, Option.elim_some, Option.elim_none, new]
    · rfl
  | setEntry _ => rfl
  | addEdge _ _ => rw [step, block?_addEdge, Option.elim_map]; rfl
  | addStmt _ access exprs => rw [step, block?_addStmt, Option.elim_map]; rfl
  | addExpr _ => rfl

theorem mem_elim_block?_step {α : Type} {f : Block → List α} (new : f {} = []) {x : α}
    {P : Prop} (adds : ∀ block, x ∈ f (c.updated b block e) ↔ x ∈ f block ∨ P) :
    x ∈ ((c.step e).block? b).elim [] f ↔
      x ∈ (c.block? b).elim [] f ∨ P ∧ b ∈ c.blockIds := by
  have missing : c.block? b = none ↔ b ∉ c.blockIds := block?_eq_none_iff
  rw [elim_block?_step f new]
  cases h : c.block? b with
  | none => simp [missing.mp h]
  | some block =>
    have exists_b : b ∈ c.blockIds := by
      by_contra hn
      rw [missing.mpr hn] at h
      cases h
    simpa [exists_b] using adds block

theorem mem_succs_step :
    v ∈ (c.step e).succs u ↔ v ∈ c.succs u ∨ e = .addEdge u v ∧ u ∈ c.blockIds := by
  apply mem_elim_block?_step rfl
  intro block
  cases e <;> grind [updated]

theorem mem_preds_step :
    u ∈ (c.step e).preds v ↔ u ∈ c.preds v ∨ e = .addEdge u v ∧ v ∈ c.blockIds := by
  apply mem_elim_block?_step rfl
  intro block
  cases e <;> grind [updated]

theorem mem_stmtsOf_step :
    s ∈ (c.step e).stmtsOf b ↔
      s ∈ c.stmtsOf b ∨ (e.stmtBlock? = some b ∧ s.num = c.stmts.size) ∧ b ∈ c.blockIds := by
  apply mem_elim_block?_step rfl
  intro block
  cases e <;> grind [updated, BuildStep.stmtBlock?, StmtId]

theorem blockOf_step :
    (c.step e).blockOf s = some b ↔
      c.blockOf s = some b ∨ e.stmtBlock? = some b ∧ s.num = c.stmts.size := by
  cases e with
  | addStmt u access exprs =>
    simp only [step, addStmt, blockOf, Array.getElem?_push, BuildStep.stmtBlock?]
    split <;> grind
  | addBlock => simp [step, addBlock, blockOf, BuildStep.stmtBlock?]
  | setEntry _ => simp [step, setEntry, blockOf, BuildStep.stmtBlock?]
  | addEdge _ _ => simp [step, addEdge, blockOf, BuildStep.stmtBlock?]
  | addExpr _ => simp [step, addExpr, blockOf, BuildStep.stmtBlock?]

theorem num_lt_of_blockOf (h : c.blockOf s = some b) : s.num < c.stmts.size := by
  by_contra beyond
  rw [blockOf, Array.getElem?_eq_none (by omega)] at h
  cases h

theorem mem_blockIds_of_mem_stmtsOf (h : s ∈ c.stmtsOf b) : b ∈ c.blockIds := by
  by_contra missing
  rw [stmtsOf, block?_eq_none_iff.mpr missing] at h
  cases h

/-- A statement that is numbered and not listed was added ahead of its block, for no later step
lists it. -/
theorem unlisted_step :
    (c.step e).blockOf s = some b ∧ s ∉ (c.step e).stmtsOf b ↔
      (c.blockOf s = some b ∧ s ∉ c.stmtsOf b) ∨
        (e.stmtBlock? = some b ∧ s.num = c.stmts.size) ∧ b ∉ c.blockIds := by
  rw [blockOf_step, mem_stmtsOf_step]
  -- A step lists the number that is next, which no earlier statement has.
  have old : c.blockOf s = some b → s.num ≠ c.stmts.size := by
    intro h
    exact Nat.ne_of_lt (num_lt_of_blockOf h)
  have listed : s ∈ c.stmtsOf b → b ∈ c.blockIds := mem_blockIds_of_mem_stmtsOf
  tauto

/-! ## What a history records -/

/-- Some step of a history had the property in the graph that it was taken on. -/
def Took (c : GraphBuilder) (steps : List BuildStep) (P : GraphBuilder → BuildStep → Prop) :
    Prop :=
  ∃ before e after, steps = before ++ e :: after ∧ P (c.run before) e

theorem not_took_nil {P : GraphBuilder → BuildStep → Prop} : ¬ c.Took [] P := by
  simp [Took]

theorem took_cons {P : GraphBuilder → BuildStep → Prop} :
    c.Took (e :: steps) P ↔ P c e ∨ (c.step e).Took steps P := by
  constructor
  · rintro ⟨before, e', after, split, h⟩
    cases before with
    | nil =>
      obtain ⟨rfl, rfl⟩ := List.cons.inj split
      exact Or.inl h
    | cons first before =>
      obtain ⟨rfl, rfl⟩ := List.cons.inj split
      exact Or.inr ⟨before, e', after, rfl, h⟩
  · rintro (h | ⟨before, e', after, rfl, h⟩)
    · exact ⟨[], e, steps, rfl, h⟩
    · exact ⟨e :: before, e', after, rfl, h⟩

instance decidableTook (P : GraphBuilder → BuildStep → Prop) [∀ c e, Decidable (P c e)] :
    (steps : List BuildStep) → (c : GraphBuilder) → Decidable (c.Took steps P)
  | [], _ => isFalse not_took_nil
  | e :: steps, c =>
    have := decidableTook P steps (c.step e)
    decidable_of_iff (P c e ∨ (c.step e).Took steps P) took_cons.symm

/-- What starts out false and a step can only add holds after a history if a step of it added
it. -/
theorem run_iff_took {Q : GraphBuilder → Prop} {P : GraphBuilder → BuildStep → Prop}
    (start : ¬ Q {}) (step_iff : ∀ c e, Q (c.step e) ↔ Q c ∨ P c e) :
    Q (run {} steps) ↔ Took {} steps P := by
  have general (c : GraphBuilder) : Q (c.run steps) ↔ Q c ∨ c.Took steps P := by
    induction steps generalizing c with
    | nil => simp [run, not_took_nil]
    | cons e steps ih =>
      calc Q (c.run (e :: steps)) ↔ Q (c.step e) ∨ (c.step e).Took steps P := ih _
        _ ↔ (Q c ∨ P c e) ∨ (c.step e).Took steps P := by rw [step_iff]
        _ ↔ Q c ∨ c.Took (e :: steps) P := by rw [took_cons, or_assoc]
  rw [general, or_iff_right start]

/-- The step adds the edge to a graph that has one of its ends. -/
def NotesEdge (u v : BlockId) (c : GraphBuilder) (e : BuildStep) : Prop :=
  e = .addEdge u v ∧ (u ∈ c.blockIds ∨ v ∈ c.blockIds)

/-- The step adds the statement, under the next number, to a graph that has its block. -/
def ListsStmt (s : StmtId) (b : BlockId) (c : GraphBuilder) (e : BuildStep) : Prop :=
  (e.stmtBlock? = some b ∧ s.num = c.stmts.size) ∧ b ∈ c.blockIds

/-- The step adds a statement to a graph that lacks its block. -/
def RunsAhead (b : BlockId) (c : GraphBuilder) (e : BuildStep) : Prop :=
  e.stmtBlock? = some b ∧ b ∉ c.blockIds

instance (c : GraphBuilder) (e : BuildStep) : Decidable (NotesEdge u v c e) :=
  inferInstanceAs (Decidable (_ ∧ _))

instance (c : GraphBuilder) (e : BuildStep) : Decidable (RunsAhead b c e) :=
  inferInstanceAs (Decidable (_ ∧ _))

theorem Took.mono {P P' : GraphBuilder → BuildStep → Prop} (h : c.Took steps P)
    (imp : ∀ c e, P c e → P' c e) : c.Took steps P' := by
  obtain ⟨before, e, after, split, h⟩ := h
  exact ⟨before, e, after, split, imp _ _ h⟩

theorem took_notesEdge_iff :
    c.Took steps (NotesEdge u v) ↔
      (c.Took steps fun c e => e = .addEdge u v ∧ u ∈ c.blockIds) ∨
        c.Took steps fun c e => e = .addEdge u v ∧ v ∈ c.blockIds := by
  simp only [Took, NotesEdge, and_or_left, exists_or]

theorem mem_of_took_notesEdge (h : c.Took steps (NotesEdge u v)) : .addEdge u v ∈ steps := by
  obtain ⟨before, e, after, rfl, rfl, -⟩ := h
  simp

theorem mem_succs_run :
    v ∈ (run {} steps).succs u ↔ Took {} steps fun c e => e = .addEdge u v ∧ u ∈ c.blockIds :=
  run_iff_took (Q := fun c => v ∈ c.succs u) (by simp [succs, block?]) fun _ _ => mem_succs_step

theorem mem_preds_run :
    u ∈ (run {} steps).preds v ↔ Took {} steps fun c e => e = .addEdge u v ∧ v ∈ c.blockIds :=
  run_iff_took (Q := fun c => u ∈ c.preds v) (by simp [preds, block?]) fun _ _ => mem_preds_step

theorem mem_stmtsOf_run : s ∈ (run {} steps).stmtsOf b ↔ Took {} steps (ListsStmt s b) :=
  run_iff_took (Q := fun c => s ∈ c.stmtsOf b) (by simp [stmtsOf, block?]) fun _ _ =>
    mem_stmtsOf_step

theorem unlisted_run :
    (run {} steps).blockOf s = some b ∧ s ∉ (run {} steps).stmtsOf b ↔
      Took {} steps fun c e => (e.stmtBlock? = some b ∧ s.num = c.stmts.size) ∧ b ∉ c.blockIds :=
  run_iff_took (Q := fun c => c.blockOf s = some b ∧ s ∉ c.stmtsOf b) (by simp [blockOf])
    fun _ _ => unlisted_step

/-! ## Every list is in order -/

/-- A listed statement belongs to the block that lists it, and is listed there once. -/
structure Filed (c : GraphBuilder) : Prop where
  once : ∀ b, (c.stmtsOf b).Nodup
  owner : ∀ b, ∀ s ∈ c.stmtsOf b, c.blockOf s = some b

theorem Filed.step (h : c.Filed) (e : BuildStep) : (c.step e).Filed := by
  constructor
  · intro b
    have new (s : StmtId) (hs : s ∈ c.stmtsOf b) : s.num ≠ c.stmts.size :=
      Nat.ne_of_lt (num_lt_of_blockOf (h.owner b s hs))
    have once := h.once b
    rw [stmtsOf] at once new
    rw [stmtsOf, elim_block?_step Block.stmts rfl]
    cases hb : c.block? b with
    | none => exact List.nodup_nil
    | some block =>
      rw [hb, Option.elim_some] at once new
      cases e <;> grind [updated]
  · intro b s hs
    rw [blockOf_step]
    rcases mem_stmtsOf_step.mp hs with hs | ⟨added, -⟩
    · exact Or.inl (h.owner b s hs)
    · exact Or.inr added

theorem filed_run (steps : List BuildStep) : (run {} steps).Filed := by
  have general (c : GraphBuilder) (h : c.Filed) : (c.run steps).Filed := by
    induction steps generalizing c with
    | nil => exact h
    | cons e steps ih => exact ih (c.step e) (h.step e)
  apply general
  constructor <;> intro b <;> simp [stmtsOf, block?]

/-- Nothing of the history is lost: both ends of an edge between blocks of the graph know it
exactly if it was added, and a block of the graph lists once each the statements that belong to
it. -/
structure Remembers (c : GraphBuilder) (steps : List BuildStep) : Prop where
  edges : ∀ u ∈ c.blockIds, ∀ v ∈ c.blockIds,
    (v ∈ c.succs u ↔ u ∈ c.preds v) ∧ (u ∈ c.preds v ↔ .addEdge u v ∈ steps)
  stmts : ∀ s, ∀ b ∈ c.blockIds, c.blockOf s = some b ↔ (c.stmtsOf b).count s = 1

/-- Validation makes one end of an edge speak for the other. -/
theorem edge_noted_iff (wf : (run {} steps).toFlowGraph.WellFormed)
    (hu : u ∈ (run {} steps).blockIds) (hv : v ∈ (run {} steps).blockIds) :
    (v ∈ (run {} steps).succs u ↔ Took {} steps (NotesEdge u v)) ∧
      (u ∈ (run {} steps).preds v ↔ Took {} steps (NotesEdge u v)) := by
  have agree : v ∈ (run {} steps).succs u ↔ u ∈ (run {} steps).preds v := wf.agree u hu v hv
  rw [took_notesEdge_iff, ← mem_succs_run, ← mem_preds_run]
  tauto

/-- The statements of a block are all listed if none came ahead of it. -/
theorem stmts_remembered_iff :
    (∀ s, (run {} steps).blockOf s = some b ↔ ((run {} steps).stmtsOf b).count s = 1) ↔
      ¬ Took {} steps (RunsAhead b) := by
  have filed := filed_run steps
  constructor
  · rintro remembered ⟨before, e, after, split, added, missing⟩
    have unlisted := unlisted_run.mpr ⟨before, e, after, split, ⟨added, rfl⟩, missing⟩
    have once := (remembered _).mp unlisted.1
    exact unlisted.2 (List.count_pos_iff.mp (by omega))
  · intro none_ahead s
    constructor
    · intro owner
      apply List.count_eq_one_of_mem (filed.once b)
      by_contra unlisted
      exact none_ahead ((unlisted_run.mp ⟨owner, unlisted⟩).mono fun _ _ h => ⟨h.1.1, h.2⟩)
    · intro once
      exact filed.owner b s (List.count_pos_iff.mp (by omega))

/-- **An accepted graph keeps all that was added to it once its blocks were there.** Take any
history whose graph is accepted. An edge between two blocks of the graph is known at both its
ends if some step added it when one of them existed, and at neither otherwise. A block lists
once each the statements that were added to it when it existed. So nothing is lost exactly if
every edge between blocks of the graph was added at least once when one of its ends existed,
and no statement of a block of the graph was added ahead of the block. -/
theorem accepted_remembers_iff (steps : List BuildStep) (d : DenseGraph)
    (accepted : DenseGraph.ofFlowGraph (run {} steps).toFlowGraph = .ok d) :
    let c := run {} steps
    (∀ u ∈ c.blockIds, ∀ v ∈ c.blockIds,
      (v ∈ c.succs u ↔ Took {} steps (NotesEdge u v)) ∧
      (u ∈ c.preds v ↔ Took {} steps (NotesEdge u v))) ∧
    (∀ b ∈ c.blockIds, (c.stmtsOf b).Nodup ∧
      ∀ s, s ∈ c.stmtsOf b ↔ Took {} steps (ListsStmt s b)) ∧
    (c.Remembers steps ↔
      (∀ u ∈ c.blockIds, ∀ v ∈ c.blockIds, .addEdge u v ∈ steps →
        Took {} steps (NotesEdge u v)) ∧
      ∀ b ∈ c.blockIds, ¬ Took {} steps (RunsAhead b)) := by
  intro c
  have wf := (DenseGraph.ofFlowGraph_cases accepted).1
  refine ⟨fun u hu v hv => edge_noted_iff wf hu hv,
    fun b _ => ⟨(filed_run steps).once b, fun s => mem_stmtsOf_run⟩, ?_⟩
  constructor
  · intro remembers
    constructor
    · intro u hu v hv added
      exact (edge_noted_iff wf hu hv).2.mp ((remembers.edges u hu v hv).2.mpr added)
    · intro b hb
      exact stmts_remembered_iff.mp fun s => remembers.stmts s b hb
  · rintro ⟨noted, none_ahead⟩
    constructor
    · intro u hu v hv
      obtain ⟨at_source, at_target⟩ := edge_noted_iff wf hu hv
      refine ⟨at_source.trans at_target.symm, at_target.trans ?_⟩
      exact ⟨mem_of_took_notesEdge, noted u hu v hv⟩
    · intro s b hb
      exact stmts_remembered_iff.mpr (none_ahead b hb) s

/-- A loop of two blocks. The edge into the second one is first added when neither is there. -/
def retried : List BuildStep :=
  [.addEdge ⟨0⟩ ⟨1⟩, .addBlock, .addStmt ⟨0⟩ none [], .addBlock, .addEdge ⟨1⟩ ⟨0⟩,
    .addStmt ⟨1⟩ none [], .addEdge ⟨0⟩ ⟨1⟩, .addStmt ⟨0⟩ none []]

theorem retried_remembered :
    ∃ d, DenseGraph.ofFlowGraph (run {} retried).toFlowGraph = .ok d ∧
      (run {} retried).Remembers retried := by
  obtain ⟨d, accepted⟩ := DenseGraph.accepted_iff.mpr (FlowGraph.malformedAt?_eq_none_iff.mp
    (show (run {} retried).toFlowGraph.malformedAt? = none by decide))
  exact ⟨d, accepted, (accepted_remembers_iff retried d accepted).2.2.mpr (by decide)⟩

/-- A block whose loop and whose statement are added before it is. -/
def hasty : List BuildStep := [.addEdge ⟨0⟩ ⟨0⟩, .addStmt ⟨0⟩ none [], .addBlock]

/-- **What is added ahead of its block can be lost.** The graph is accepted, and has neither the
edge nor, in the list of its block, the statement. -/
theorem hasty_forgotten :
    (∃ d, DenseGraph.ofFlowGraph (run {} hasty).toFlowGraph = .ok d) ∧
      (.addEdge ⟨0⟩ ⟨0⟩ ∈ hasty ∧ (run {} hasty).succs ⟨0⟩ = [] ∧
        (run {} hasty).preds ⟨0⟩ = []) ∧
      ((run {} hasty).blockOf ⟨0⟩ = some ⟨0⟩ ∧ (run {} hasty).stmtsOf ⟨0⟩ = []) ∧
      ¬ (run {} hasty).Remembers hasty := by
  have lost : (run {} hasty).succs ⟨0⟩ = [] ∧ (run {} hasty).preds ⟨0⟩ = [] := by decide
  refine ⟨?_, ⟨by decide, lost⟩, by decide, ?_⟩
  · exact DenseGraph.accepted_iff.mpr (FlowGraph.malformedAt?_eq_none_iff.mp
      (show (run {} hasty).toFlowGraph.malformedAt? = none by decide))
  · intro remembers
    have known := (remembers.edges ⟨0⟩ (by decide) ⟨0⟩ (by decide)).2.mpr (by decide)
    rw [lost.2] at known
    cases known

end GraphBuilder

end MemFlow

import MemFlow.Proofs.LaterRequests
import MemFlow.Proofs.SetClosures
import MemFlow.Proofs.Workers

/-!
# The six sets of a block

The effect of a block is found by going through its statements, each of which takes some ids
out of what was gathered before and puts others in. What comes out can be said at once: a
definition is generated if nothing after its last occurrence kills it, and killed if some
other statement of the block does. Kills are told by closures, as they are computed.
-/

namespace MemFlow

namespace FlowGraph

/-- The closure of what the statement may write shares an id with the given places. -/
def ClosureMeets (g : FlowGraph) (r : Registry) (strict : Bool) (s : StmtId) (places : DescSet) :
    Prop :=
  ∃ c, r.closureOfSet strict (g.written s) = .ok c ∧ c.meets places = true

/-- The closure of what `s` may write meets what `d` may write. -/
def ClosureKills (g : FlowGraph) (r : Registry) (strict : Bool) (s d : StmtId) : Prop :=
  g.ClosureMeets r strict s (g.written d)

/-- The closure of what `s` may write meets what the expression reads. -/
def ClosureSpoils (g : FlowGraph) (r : Registry) (strict : Bool) (s : StmtId) (e : ExprId) : Prop :=
  ∃ used, g.uses e = some used ∧ g.ClosureMeets r strict s used

/-- The statement occurs, and none of those after its last occurrence kills it. -/
def SurvivesLast (kills : StmtId → StmtId → Prop) (d : StmtId) (ss : List StmtId) : Prop :=
  ∃ pre post, ss = pre ++ d :: post ∧ d ∉ post ∧ ∀ t ∈ post, ¬ kills t d

end FlowGraph

namespace Effect

/-- Each of the six sets, by what the statements do. -/
structure Matches (effect : Effect) (g : FlowGraph) (r : Registry) (strict : Bool)
    (ss : List StmtId) : Prop where
  mustKilled : ∀ d : StmtId, d.num ∈ effect.mustKilled ↔
    g.Defines d ∧ ∃ s ∈ ss, g.Defines s ∧ s ≠ d ∧ g.MustKills r s d
  mayKilled : ∀ d : StmtId, d.num ∈ effect.mayKilled ↔
    g.Defines d ∧ ∃ s ∈ ss, g.Defines s ∧ s ≠ d ∧ g.ClosureKills r strict s d
  mayGen : ∀ d : StmtId, d.num ∈ effect.mayGen ↔
    g.Defines d ∧ FlowGraph.SurvivesLast (g.MustKills r) d ss
  mustGen : ∀ d : StmtId, d.num ∈ effect.mustGen ↔
    g.IsCertain d ∧ FlowGraph.SurvivesLast (g.ClosureKills r strict) d ss
  killedExpr : ∀ e : ExprId, e.num ∈ effect.killedExpr ↔
    g.Computes e ∧ ∃ s ∈ ss, g.ClosureSpoils r strict s e
  genExpr : ∀ e : ExprId, e.num ∈ effect.genExpr ↔
    ∃ pre s post, ss = pre ++ s :: post ∧ e ∈ g.exprs s ∧
      ∀ t ∈ s :: post, ¬ g.ClosureSpoils r strict t e

/-- The sets hold nothing but definitions and expressions of the inventory. -/
structure Within (effect : Effect) (inv : Inventory) : Prop where
  mustKilled : effect.mustKilled ⊆ inv.defIds
  mayKilled : effect.mayKilled ⊆ inv.defIds
  mayGen : effect.mayGen ⊆ inv.defIds
  mustGen : effect.mustGen ⊆ inv.defIds
  killedExpr : effect.killedExpr ⊆ inv.exprIds
  genExpr : effect.genExpr ⊆ inv.exprIds

end Effect

variable {g : FlowGraph} {r : Registry} {inv : Inventory} {strict : Bool}

/-! ## The inventory -/

namespace Inventory

theorem mem_defIds_iff (h : ofFlowGraph g r = .ok inv) {d : StmtId} :
    d.num ∈ inv.defIds ↔ g.Defines d := by
  constructor
  · intro hd
    obtain ⟨v, hv, num⟩ := List.mem_map.mp (IdSet.mem_ofList.mp hd)
    obtain ⟨s, defines, rfl⟩ := (mem_defs h).mp hv
    obtain rfl : s = d := congrArg StmtId.mk num
    exact defines
  · exact mem_defIds h

theorem mem_exprIds_iff (h : ofFlowGraph g r = .ok inv) {e : ExprId} :
    e.num ∈ inv.exprIds ↔ g.Computes e := by
  constructor
  · intro he
    obtain ⟨p, hp, num⟩ := List.mem_map.mp (IdSet.mem_ofList.mp he)
    obtain rfl : p.1 = e := congrArg ExprId.mk num
    exact ((mem_exprs h).mp hp).1
  · exact mem_exprIds h

end Inventory

/-! ## Closures tell the kills -/

namespace FlowGraph

variable {s : StmtId}

theorem closureMeets_iff (hinv : Inventory.ofFlowGraph g r = .ok inv) (wf : r.WellFormed)
    (hs : s ∈ g.allStmts) {places : DescSet} :
    g.ClosureMeets r strict s places ↔ g.Touches r strict s places := by
  obtain ⟨c, closed, members⟩ := wf.closureOfSet_ok (Inventory.knows_written hinv hs) strict
  rw [touches_iff_closure, ClosureMeets, closed]
  simp only [Except.ok.injEq, exists_eq_left', DescSet.meets_iff, members]

theorem closureSpoils_iff (hinv : Inventory.ofFlowGraph g r = .ok inv) (wf : r.WellFormed)
    (hs : s ∈ g.allStmts) {e : ExprId} :
    g.ClosureSpoils r strict s e ↔ g.Invalidates r strict s e :=
  exists_congr fun _ => and_congr_right fun _ => closureMeets_iff hinv wf hs

end FlowGraph

/-! ## Statements in a row -/

variable {kills kills' : StmtId → StmtId → Prop} {d : StmtId} {ss : List StmtId}

theorem exists_last {α : Type} {a : α} {as : List α} (h : a ∈ as) :
    ∃ pre post, as = pre ++ a :: post ∧ a ∉ post := by
  obtain ⟨before, after, split, first⟩ := List.eq_append_cons_of_mem (List.mem_reverse.mpr h)
  refine ⟨after.reverse, before.reverse, ?_, by simpa using first⟩
  simpa using congrArg List.reverse split

theorem survives_iff_last (agree : ∀ s ∈ ss, kills' s d ↔ kills s d) :
    FlowGraph.Survives kills d ss ↔ FlowGraph.SurvivesLast kills' d ss := by
  constructor
  · rintro ⟨pre, post, rfl, kept⟩
    -- The occurrence need not be the last; what comes after the last comes after this one.
    have occurs : d ∈ d :: post := List.mem_cons_self
    obtain ⟨before, after, split, last⟩ := exists_last occurs
    refine ⟨pre ++ before, after, by rw [split, List.append_assoc], last, ?_⟩
    intro t ht killed
    have other : t ≠ d := fun same => last (same ▸ ht)
    have later : t ∈ d :: post := by
      rw [split]
      simp [ht]
    have killed' := (agree t (List.mem_append_right pre later)).mp killed
    exact kept t ((List.mem_cons.mp later).resolve_left other) other killed'
  · rintro ⟨pre, post, rfl, last, kept⟩
    refine ⟨pre, post, rfl, ?_⟩
    intro s hs _ killed
    exact kept s hs ((agree s (by simp [hs])).mpr killed)

theorem exists_ends_iff (hss : ∀ s ∈ ss, s ∈ g.allStmts)
    (writes : ∀ s, kills s d → g.Writes s) (agree : ∀ s ∈ ss, kills' s d ↔ kills s d) :
    (∃ s ∈ ss, Ends g kills d.num s) ↔
      g.Defines d ∧ ∃ s ∈ ss, g.Defines s ∧ s ≠ d ∧ kills' s d := by
  constructor
  · rintro ⟨s, hs, defines, other, killed⟩
    exact ⟨defines, s, hs, ⟨hss s hs, writes s killed⟩, fun same => other (same ▸ rfl),
      (agree s hs).mpr killed⟩
  · rintro ⟨defines, s, hs, -, other, killed⟩
    refine ⟨s, hs, defines, ?_, (agree s hs).mp killed⟩
    intro same
    exact other (congrArg StmtId.mk same)

theorem lasts_iff_last {P : StmtId → Prop} (hP : P d → g.Writes d)
    (hss : ∀ s ∈ ss, s ∈ g.allStmts) (agree : ∀ s ∈ ss, kills' s d ↔ kills s d) :
    Lasts (Begins P d.num) (Ends g kills d.num) ss ↔ P d ∧ FlowGraph.SurvivesLast kills' d ss := by
  rw [lasts_begins_iff hP hss, survives_iff_last agree]

theorem FlowGraph.SurvivesLast.mem (h : FlowGraph.SurvivesLast kills d ss) : d ∈ ss := by
  obtain ⟨pre, post, rfl, -⟩ := h
  simp

namespace Effect

variable {effect : Effect}

/-- **The sets of a row of statements**, each by what the statements do. -/
theorem Describes.matches (h : effect.Describes g r strict ss)
    (hinv : Inventory.ofFlowGraph g r = .ok inv) (wf : r.WellFormed)
    (hss : ∀ s ∈ ss, s ∈ g.allStmts) : effect.Matches g r strict ss := by
  have kills (d : StmtId) : ∀ s ∈ ss, g.ClosureKills r strict s d ↔ g.MayKills r strict s d :=
    fun s hs => FlowGraph.closureMeets_iff hinv wf (hss s hs)
  have spoils (e : ExprId) : ∀ s ∈ ss, g.ClosureSpoils r strict s e ↔ g.Invalidates r strict s e :=
    fun s hs => FlowGraph.closureSpoils_iff hinv wf (hss s hs)
  constructor
  · intro d
    rw [← exists_ends_iff hss (fun s => FlowGraph.MustKills.writes) fun s _ => Iff.rfl]
    exact (h.reaching d.num).2
  · intro d
    rw [← exists_ends_iff hss (fun s => FlowGraph.Touches.writes) (kills d)]
    exact (h.available d.num).2
  · intro d
    have survives := (h.reaching d.num).1.trans (lasts_iff_last id hss fun s _ => Iff.rfl)
    refine survives.trans (and_congr_left fun last => ?_)
    exact (and_iff_right (hss d last.mem)).symm
  · intro d
    rw [← lasts_iff_last FlowGraph.IsCertain.writes hss (kills d)]
    exact (h.available d.num).1
  · intro e
    refine (h.expressions e.num).2.trans ?_
    constructor
    · rintro ⟨s, hs, computes, invalid⟩
      exact ⟨computes, s, hs, (spoils e s hs).mpr invalid⟩
    · rintro ⟨computes, s, hs, spoiled⟩
      exact ⟨s, hs, computes, (spoils e s hs).mp spoiled⟩
  · intro e
    refine ((h.expressions e.num).1.trans (lasts_evaluated_iff hss)).trans ?_
    refine exists_congr fun pre => exists_congr fun s => exists_congr fun post => ?_
    refine and_congr_right fun split => and_congr_right fun _ => forall₂_congr fun t ht => ?_
    have among : t ∈ ss := split ▸ List.mem_append_right pre ht
    rw [spoils e t among]

theorem Matches.within (h : effect.Matches g r strict ss)
    (hinv : Inventory.ofFlowGraph g r = .ok inv) (hss : ∀ s ∈ ss, s ∈ g.allStmts) :
    effect.Within inv := by
  constructor
  · intro v hv
    exact (Inventory.mem_defIds_iff hinv).mpr ((h.mustKilled ⟨v⟩).mp hv).1
  · intro v hv
    exact (Inventory.mem_defIds_iff hinv).mpr ((h.mayKilled ⟨v⟩).mp hv).1
  · intro v hv
    exact (Inventory.mem_defIds_iff hinv).mpr ((h.mayGen ⟨v⟩).mp hv).1
  · intro v hv
    obtain ⟨certain, last⟩ := (h.mustGen ⟨v⟩).mp hv
    exact (Inventory.mem_defIds_iff hinv).mpr ⟨hss _ last.mem, certain.writes⟩
  · intro v hv
    exact (Inventory.mem_exprIds_iff hinv).mpr ((h.killedExpr ⟨v⟩).mp hv).1
  · intro v hv
    obtain ⟨pre, s, post, rfl, evaluated, -⟩ := (h.genExpr ⟨v⟩).mp hv
    exact (Inventory.mem_exprIds_iff hinv).mpr ⟨s, hss s (by simp), evaluated⟩

theorem describes_ofBlock (hinv : Inventory.ofFlowGraph g r = .ok inv) (wf : r.WellFormed)
    {m m' : ClosureMemo} (hm : m.Answers r strict) {b : BlockId} (hb : b ∈ g.blocks)
    (h : ofBlock g inv m b = .ok (m', effect)) : effect.Describes g r strict (g.stmts b) where
  reaching := (Channel.means_ofBlock (Channel.reaching_tells hinv strict) hb hm h).2
  available := (Channel.means_ofBlock (Channel.available_tells hinv wf strict) hb hm h).2
  expressions := (Channel.means_ofBlock (Channel.expressions_tells hinv wf strict) hb hm h).2

end Effect

/-- **The sets of a block are what its statements say.** For every graph and registry that pass
the checks, the inventory holds the definitions and expressions of the graph. Each block has one
effect, whichever memo was carried to it. A definition is killed in it if some other definition
of the block kills it, and generated if none after its last occurrence does; an expression is
killed if the write of some statement meets what it reads, and generated if it is evaluated and
no write from that statement on does. All that the effect holds is in the inventory. -/
theorem local_sets_exact (edits : List RegistryEdit) {dense : DenseGraph}
    (accepted : DenseGraph.ofFlowGraph g = .ok dense)
    (hinv : Inventory.ofFlowGraph g (Registry.initial.run edits) = .ok inv) (options : Options) :
    (∀ d : StmtId, d.num ∈ inv.defIds ↔ g.Defines d) ∧
    (∀ e : ExprId, e.num ∈ inv.exprIds ↔ g.Computes e) ∧
    ∃ k, BlockEffects.compute g (Registry.initial.run edits) options = .ok k ∧
      ∀ b ∈ g.blocks, ∃ effect, k.effect? b = some effect ∧
        (∀ m, ClosureMemo.Carried g inv (Registry.initial.run edits) options.strict m →
          ∃ m', Effect.ofBlock g inv m b = .ok (m', effect)) ∧
        effect.Matches g (Registry.initial.run edits) options.strict (g.stmts b) ∧
        effect.Within inv := by
  have wf := Registry.wellFormed_run edits
  refine ⟨fun d => Inventory.mem_defIds_iff hinv, fun e => Inventory.mem_exprIds_iff hinv, ?_⟩
  obtain ⟨k, computed⟩ := BlockEffects.compute_ok accepted hinv options
  refine ⟨k, computed, ?_⟩
  intro b hb
  have stmts : ∀ s ∈ g.stmts b, s ∈ g.allStmts := fun s hs => List.mem_flatMap.mpr ⟨b, hb, hs⟩
  obtain ⟨effect, found, describes⟩ := BlockEffects.effect_describes computed wf hb
  have sets := describes.matches hinv wf stmts
  refine ⟨effect, found, ?_, sets, sets.within hinv stmts⟩
  intro m carried
  have hm := carried.answers (Effect.exists_settles hinv options.strict)
  obtain ⟨m', effect', again, -⟩ :=
    Effect.ofBlock_ok (g := g) (fun v hv => Inventory.known_of_mem hinv hv) hm b
  have describes' := Effect.describes_ofBlock hinv wf hm hb again
  obtain rfl : effect = effect' :=
    describes.eq_of_includes (fun _ _ found => found) hinv stmts describes'
  exact ⟨m', again⟩

/-- A statement occurs before and after one that overwrites it, and again in another block. It
evaluates an expression both times, which the other statement evaluates and then spoils. -/
def echo : FlowGraph := GraphTable.toFlowGraph {
  entry := ⟨0⟩, blocks := [⟨0⟩, ⟨1⟩], rpo := [⟨0⟩, ⟨1⟩]
  preds := [(⟨1⟩, [⟨0⟩])], succs := [(⟨0⟩, [⟨1⟩])]
  stmts := [(⟨0⟩, [⟨0⟩, ⟨1⟩, ⟨0⟩, ⟨2⟩]), (⟨1⟩, [⟨0⟩])]
  access := [(⟨0⟩, { certain := some ⟨3⟩ }), (⟨1⟩, { certain := some ⟨4⟩ }),
    (⟨2⟩, { possible := .ofList [.globalMem] })]
  exprs := [(⟨0⟩, [⟨0⟩]), (⟨1⟩, [⟨0⟩])], uses := [(⟨0⟩, .ofList [⟨5⟩])] }

def echoEdits : List RegistryEdit :=
  [.declare "x" .localVar, .register { base := ⟨3⟩, kind := .exact, size := 4 },
    .register { base := ⟨3⟩, kind := .exact, size := 8 },
    .register { base := ⟨3⟩, kind := .range, offset := 4, size := 8 }]

/-- The statement that occurs twice is killed by the one in between and generated by its second
occurrence; the one in between is generated for certain no more. The expression is spoiled and
then evaluated again. -/
theorem echo_sets :
    (∃ dense, DenseGraph.ofFlowGraph echo = .ok dense) ∧
    ∃ inv, Inventory.ofFlowGraph echo (Registry.initial.run echoEdits) = .ok inv ∧
    ∃ k, BlockEffects.compute echo (Registry.initial.run echoEdits) {} = .ok k ∧ ⟨0⟩ ∈ echo.blocks ∧
    ∃ effect : Effect, effect = {
        mayGen := .ofList [0, 1, 2], mustGen := .ofList [0]
        mustKilled := .ofList [0], mayKilled := .ofList [0, 1]
        genExpr := .ofList [0], killedExpr := .ofList [0] } ∧
      k.effect? ⟨0⟩ = some effect ∧
      effect.Matches echo (Registry.initial.run echoEdits) false [⟨0⟩, ⟨1⟩, ⟨0⟩, ⟨2⟩] ∧
      effect.Within inv := by
  have computes : (BlockEffects.compute echo (Registry.initial.run echoEdits) {}).toOption.bind
      (·.effect? ⟨0⟩) = some {
        mayGen := .ofList [0, 1, 2], mustGen := .ofList [0]
        mustKilled := .ofList [0], mayKilled := .ofList [0, 1]
        genExpr := .ofList [0], killedExpr := .ofList [0] } := by
    decide +kernel
  have accepted : ∃ dense, DenseGraph.ofFlowGraph echo = .ok dense := ⟨_, rfl⟩
  have collected : ∃ inv, Inventory.ofFlowGraph echo (Registry.initial.run echoEdits) = .ok inv :=
    ⟨_, rfl⟩
  obtain ⟨dense, hdense⟩ := accepted
  obtain ⟨inv, hinv⟩ := collected
  have hb : ⟨0⟩ ∈ echo.blocks := by decide
  obtain ⟨-, -, k, computed, sets⟩ := local_sets_exact echoEdits hdense hinv {}
  obtain ⟨effect, found, -, declared, within⟩ := sets ⟨0⟩ hb
  rw [computed] at computes
  have value := Option.some.inj (found.symm.trans computes)
  exact ⟨⟨dense, hdense⟩, inv, hinv, k, computed, hb, effect, value, found, declared, within⟩

end MemFlow

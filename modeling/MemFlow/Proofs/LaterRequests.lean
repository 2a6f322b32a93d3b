import MemFlow.Proofs.AvailableExpressions
import MemFlow.Proofs.Checks
import MemFlow.Proofs.Interning

/-!
# Requests after an analysis

A registry grows while a program is being read, and so do its closures. An analysis
asks only about descriptors that its graph names, and those were registered when the
graph passed the checks. Two registries of which one includes the other agree on these,
so whatever is requested later, the analysis stays as it was.
-/

namespace MemFlow

/-! ## Registries that grow -/

namespace Registry

/-- Every id of `r` stands for the same descriptor in `r'`. -/
def Includes (r' r : Registry) : Prop :=
  ∀ d desc, r.desc? d = some desc → r'.desc? d = some desc

variable {r r' : Registry} {d : DescId}

theorem includes_run (r : Registry) (edits : List RegistryEdit) : (r.run edits).Includes r :=
  fun _ _ h => desc?_run h edits

theorem Includes.registered (inc : r'.Includes r) (h : r.isRegistered d = true) :
    r'.isRegistered d = true := by
  obtain ⟨desc, found⟩ := isRegistered_iff.mp h
  exact isRegistered_iff.mpr ⟨desc, inc d desc found⟩

theorem Includes.desc?_eq (inc : r'.Includes r) (h : r.isRegistered d = true) :
    r'.desc? d = r.desc? d := by
  obtain ⟨desc, found⟩ := isRegistered_iff.mp h
  rw [found]
  exact inc d desc found

theorem Includes.knows (inc : r'.Includes r) {s : DescSet} (h : r.Knows s) : r'.Knows s :=
  fun d hd => inc.registered (h d hd)

theorem Includes.definite (inc : r'.Includes r) (h : r.Definite d) : r'.Definite d := by
  obtain ⟨desc, found, definite⟩ := h
  exact ⟨desc, inc d desc found, definite⟩

/-- A closure grows by new ids only. -/
theorem Includes.inClosure_iff (inc : r'.Includes r) (wf : r.WellFormed)
    (hd : r.isRegistered d = true) {strict : Bool} {e : DescId} :
    r.InClosure strict d e ↔ r'.InClosure strict d e ∧ r.isRegistered e = true := by
  constructor
  · rintro (⟨target, desc, hd, he, overlaps⟩ | ⟨hs, sentinel⟩)
    · exact ⟨Or.inl ⟨target, desc, inc d target hd, inc e desc he, overlaps⟩,
        isRegistered_iff.mpr ⟨desc, he⟩⟩
    · refine ⟨Or.inr ⟨hs, sentinel⟩, ?_⟩
      -- What the strict reading adds are sentinels, and they come before all requests.
      have first : 3 ≤ r.descs.size := wf.sentinels
      have bound : e.num < 3 := by
        rcases sentinel with rfl | rfl <;> decide
      simp only [isRegistered, decide_eq_true_eq]
      omega
  · rintro ⟨⟨target, desc, hd', he', overlaps⟩ | strictly, he⟩
    · rw [inc.desc?_eq hd] at hd'
      rw [inc.desc?_eq he] at he'
      exact Or.inl ⟨target, desc, hd', he', overlaps⟩
    · exact Or.inr strictly

theorem Includes.closure (inc : r'.Includes r) (wf : r.WellFormed) (wf' : r'.WellFormed)
    (strict : Bool) (hd : r.isRegistered d = true) :
    ∃ old new, r.closure strict d = .ok old ∧ r'.closure strict d = .ok new ∧
      ∀ e, e ∈ old ↔ e ∈ new ∧ r.isRegistered e = true := by
  obtain ⟨old, closed⟩ := closure_of_registered hd strict
  obtain ⟨new, closed'⟩ := closure_of_registered (inc.registered hd) strict
  refine ⟨old, new, closed, closed', ?_⟩
  intro e
  rw [mem_closure wf closed, mem_closure wf' closed']
  exact inc.inClosure_iff wf hd

end Registry

variable {g : FlowGraph} {r r' : Registry} {inv : Inventory} {strict : Bool} {s : StmtId}

/-! ## The checks pass again -/

namespace Registry.Includes

theorem accessSound (inc : r'.Includes r) {acc : Access} (h : acc.Sound r) : acc.Sound r' where
  certain d hd := inc.registered (h.certain d hd)
  possible := inc.knows h.possible
  reads := inc.knows h.reads
  definite d hd := inc.definite (h.definite d hd)

theorem exprSound (inc : r'.Includes r) {e : ExprId} (h : g.ExprSound r e) : g.ExprSound r' e := by
  obtain ⟨used, summary, known⟩ := h
  exact ⟨used, summary, inc.knows known⟩

theorem inventory (inc : r'.Includes r) (h : Inventory.ofFlowGraph g r = .ok inv) :
    Inventory.ofFlowGraph g r' = .ok inv := by
  have sound := Inventory.ofFlowGraph_eq_ok_iff.mp ⟨inv, h⟩
  have sound' : ∀ b ∈ g.blocks, ∀ s ∈ g.stmts b, g.StmtSound r' s := by
    intro b hb s hs
    obtain ⟨access, exprs⟩ := sound b hb s hs
    exact ⟨fun acc found => inc.accessSound (access acc found),
      fun e he => inc.exprSound (exprs e he)⟩
  obtain ⟨inv', h'⟩ := Inventory.ofFlowGraph_eq_ok_iff.mpr sound'
  rw [h', Inventory.eq_of_ofFlowGraph h, Inventory.eq_of_ofFlowGraph h']

end Registry.Includes

/-! ## What the graph names was registered -/

namespace Inventory

theorem knows_written (h : ofFlowGraph g r = .ok inv) (hs : s ∈ g.allStmts) :
    r.Knows (g.written s) := by
  intro d hd
  have writes : g.Writes s := FlowGraph.writes_iff_written.mpr ⟨d, hd⟩
  have known := known_of_mem h ((mem_defs h).mpr ⟨s, ⟨hs, writes⟩, rfl⟩)
  exact known.written d hd

theorem knows_used (h : ofFlowGraph g r = .ok inv) {e : ExprId} (hc : g.Computes e)
    {used : DescSet} (hu : g.uses e = some used) : r.Knows used := by
  obtain ⟨s, hs, he⟩ := hc
  obtain ⟨b, hb, hsb⟩ := List.mem_flatMap.mp hs
  obtain ⟨used', hu', known⟩ := (ofFlowGraph_eq_ok_iff.mp ⟨inv, h⟩ b hb s hsb).exprs e he
  rw [hu] at hu'
  cases hu'
  exact known

end Inventory

/-! ## No kill is made or undone -/

theorem Ends.congr {kills kills' : StmtId → StmtId → Prop}
    (agree : ∀ d ∈ g.allStmts, kills' s d ↔ kills s d) (v : Nat) :
    Ends g kills' v s ↔ Ends g kills v s :=
  and_congr_right fun defines => and_congr_right fun _ => agree ⟨v⟩ defines.1

namespace Registry.Includes

theorem touches_iff (inc : r'.Includes r) {places : DescSet} (hs : r.Knows (g.written s))
    (hp : r.Knows places) : g.Touches r' strict s places ↔ g.Touches r strict s places := by
  unfold FlowGraph.Touches
  refine or_congr_left (exists_congr fun a => and_congr_right fun ha => ?_)
  refine exists_congr fun b => and_congr_right fun hb => ?_
  rw [inc.desc?_eq (hs a ha), inc.desc?_eq (hp b hb)]

theorem mustKills_iff (inc : r'.Includes r) {d : StmtId} (hs : r.Knows (g.written s))
    (hd : r.Knows (g.written d)) : g.MustKills r' s d ↔ g.MustKills r s d := by
  unfold FlowGraph.MustKills
  refine exists₂_congr fun a b => exists₂_congr fun da db => ?_
  refine and_congr_right fun ha => and_congr_right fun hb => ?_
  rw [inc.desc?_eq (hs a (FlowGraph.mem_written_of_certain ha)),
    inc.desc?_eq (hd b (FlowGraph.mem_written_of_certain hb))]

variable (inc : r'.Includes r) (hinv : Inventory.ofFlowGraph g r = .ok inv)
include inc hinv

theorem invalidates_iff (hs : s ∈ g.allStmts) {e : ExprId} (hc : g.Computes e) :
    g.Invalidates r' strict s e ↔ g.Invalidates r strict s e :=
  exists_congr fun _ => and_congr_right fun hu =>
    inc.touches_iff (Inventory.knows_written hinv hs) (Inventory.knows_used hinv hc hu)

theorem evaluated_iff (hs : s ∈ g.allStmts) (v : Nat) :
    Evaluated g r' strict v s ↔ Evaluated g r strict v s :=
  and_congr_right fun he => not_congr (inc.invalidates_iff hinv hs ⟨s, hs, he⟩)

theorem spoiled_iff (hs : s ∈ g.allStmts) (v : Nat) :
    Spoiled g r' strict v s ↔ Spoiled g r strict v s :=
  and_congr_right fun hc => inc.invalidates_iff hinv hs hc

end Registry.Includes

/-! ## The same effects -/

namespace Effect

theorem Channel.Means.congr {ch : Channel} {gen kill gen' kill' : Nat → StmtId → Prop}
    {a b : Effect} {ss : List StmtId} (ha : ch.Means gen kill a ss)
    (hb : ch.Means gen' kill' b ss) (hg : ∀ s ∈ ss, ∀ v, gen' v s ↔ gen v s)
    (hk : ∀ s ∈ ss, ∀ v, kill' v s ↔ kill v s) : ch.gen a = ch.gen b ∧ ch.kill a = ch.kill b := by
  constructor
  · apply IdSet.eq_of_subset
    · exact ha.gen_subset hb (fun s hs v => (hg s hs v).mpr) (fun s hs v => (hk s hs v).mp)
    · exact hb.gen_subset ha (fun s hs v => (hg s hs v).mp) (fun s hs v => (hk s hs v).mpr)
  · apply IdSet.eq_of_subset
    · exact ha.kill_subset hb (fun s hs v => (hk s hs v).mpr)
    · exact hb.kill_subset ha (fun s hs v => (hk s hs v).mp)

/-- Two registries that agree on what the graph names give a row of statements one effect. -/
theorem Describes.eq_of_includes {a b : Effect} {ss : List StmtId} (inc : r'.Includes r)
    (hinv : Inventory.ofFlowGraph g r = .ok inv) (hss : ∀ s ∈ ss, s ∈ g.allStmts)
    (ha : a.Describes g r strict ss) (hb : b.Describes g r' strict ss) : a = b := by
  have written : ∀ s ∈ g.allStmts, r.Knows (g.written s) :=
    fun s hs => Inventory.knows_written hinv hs
  obtain ⟨mayGen, mustKilled⟩ := ha.reaching.congr hb.reaching (fun s hs v => Iff.rfl)
    (fun s hs => Ends.congr fun d hd =>
      inc.mustKills_iff (written s (hss s hs)) (written d hd))
  obtain ⟨mustGen, mayKilled⟩ := ha.available.congr hb.available (fun s hs v => Iff.rfl)
    (fun s hs => Ends.congr fun d hd =>
      inc.touches_iff (written s (hss s hs)) (written d hd))
  obtain ⟨genExpr, killedExpr⟩ := ha.expressions.congr hb.expressions
    (fun s hs => inc.evaluated_iff hinv (hss s hs)) (fun s hs => inc.spoiled_iff hinv (hss s hs))
  cases a
  cases b
  simp_all [Channel.reaching, Channel.available, Channel.expressions]

end Effect

theorem BlockEffects.compute_includes {options : Options} {k : BlockEffects}
    (h : compute g r options = .ok k) (inc : r'.Includes r) (wf : r.WellFormed)
    (wf' : r'.WellFormed) : compute g r' options = .ok k := by
  obtain ⟨entry, inv, effects, hg, hentry, hinv, heff, rfl⟩ := compute_cases h
  have hinv' := inc.inventory hinv
  obtain ⟨k', h'⟩ := compute_ok hg hinv' options
  obtain ⟨entry', inv', effects', -, hentry', hinv'', heff', rfl⟩ := compute_cases h'
  obtain rfl : inv = inv' := Except.ok.inj (hinv'.symm.trans hinv'')
  obtain ⟨graph_wf, -⟩ := DenseGraph.ofFlowGraph_cases hg
  -- No block is listed twice, so both runs enter at one position.
  obtain rfl : entry = entry' :=
    List.nodup_iff_injective_get.mp graph_wf.nodup (hentry.trans hentry'.symm)
  have same : effects = effects' := by
    refine Vector.ext fun i hi => ?_
    have before := Effect.describes_get hinv wf heff ⟨i, hi⟩
    have after := Effect.describes_get hinv' wf' heff' ⟨i, hi⟩
    have stmts : ∀ s ∈ g.stmts (g.blocks.get ⟨i, hi⟩), s ∈ g.allStmts :=
      fun s hs => List.mem_flatMap.mpr ⟨_, List.get_mem _ _, hs⟩
    exact before.eq_of_includes inc hinv stmts after
  rw [h', same]

/-- **Later requests change no analysis.** If the effects of a graph's blocks are found, then
after any further requests, granted or refused, the very same are found: for the same
definitions and expressions, and with the same answer under every strategy. Closures do grow,
but what is new in them are new ids: on the old ones they are what they were. -/
theorem analysis_outlasts_requests (edits later : List RegistryEdit) {options : Options}
    {k : BlockEffects} (h : BlockEffects.compute g (Registry.initial.run edits) options = .ok k) :
    let before := Registry.initial.run edits
    let after := before.run later
    BlockEffects.compute g after options = .ok k ∧
    (∀ strategy, analyse g after options strategy = analyse g before options strategy) ∧
    ∀ strict d, before.isRegistered d = true → ∃ old new,
      before.closure strict d = .ok old ∧ after.closure strict d = .ok new ∧
      ∀ e, e ∈ old ↔ e ∈ new ∧ before.isRegistered e = true := by
  intro before after
  have wf : before.WellFormed := Registry.wellFormed_run edits
  have wf' : after.WellFormed := wf.run later
  have inc : after.Includes before := before.includes_run later
  have again := BlockEffects.compute_includes h inc wf wf'
  refine ⟨again, ?_, fun strict d hd => inc.closure wf wf' strict hd⟩
  intro strategy
  unfold analyse
  rw [h, again]

/-- A variable more, a request that is refused, and one more descriptor of the variable that
the loop writes. -/
def reuseLater : List RegistryEdit :=
  [.declare "y" .globalVar, .register { base := ⟨9⟩, kind := .unbound },
    .register { base := ⟨3⟩, kind := .range, offset := 2, size := 4 }]

/-- What the loop writes overlaps one descriptor more, and every block does what it did. -/
theorem reuse_outlasts :
    ∃ k old new, BlockEffects.compute reuse reuseRegistry { strict := true } = .ok k ∧
      BlockEffects.compute reuse (reuseRegistry.run reuseLater) { strict := true } = .ok k ∧
      reuseRegistry.isRegistered ⟨3⟩ = true ∧ reuseRegistry.closure true ⟨3⟩ = .ok old ∧
      (reuseRegistry.run reuseLater).closure true ⟨3⟩ = .ok new ∧ ⟨5⟩ ∈ new ∧ ⟨5⟩ ∉ old := by
  obtain ⟨sol, solved, -⟩ := reuse_solved
  obtain ⟨k, computed, -⟩ := analyse_eq_ok.mp solved
  have registered : reuseRegistry.isRegistered ⟨3⟩ = true := by decide
  obtain ⟨again, -, closures⟩ := analysis_outlasts_requests reuseEdits reuseLater computed
  obtain ⟨old, new, closed, closed', restricted⟩ := closures true ⟨3⟩ registered
  have grown : (reuseRegistry.run reuseLater).closure true ⟨3⟩ =
      .ok (.ofList [⟨0⟩, ⟨1⟩, ⟨2⟩, ⟨3⟩, ⟨4⟩, ⟨5⟩]) := by
    rfl
  obtain rfl := Except.ok.inj (grown.symm.trans closed')
  refine ⟨k, old, _, computed, again, registered, closed, closed', by decide, ?_⟩
  intro listed
  have registered' := ((restricted ⟨5⟩).mp listed).2
  exact absurd registered' (by decide)

end MemFlow

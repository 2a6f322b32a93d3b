import MemFlow.Graph.Table
import MemFlow.Proofs.Analyses

/-!
# Which definitions reach a block

A definition reaches a block if it occurs on some path there and no other
statement after it certainly overwrites it. It is available at a block if it
occurs on every path from the entry there, and no other statement after it may
overwrite it. The solutions hold exactly these definitions.
-/

namespace MemFlow

namespace FlowGraph

/-- The definition occurs among the statements, and no other statement after
that kills it. -/
def Survives (kills : StmtId → StmtId → Prop) (d : StmtId) (ss : List StmtId) : Prop :=
  ∃ pre post, ss = pre ++ d :: post ∧ ∀ s ∈ post, s ≠ d → ¬ kills s d

/-- Some path leads from an occurrence of `d` to where `b` is entered, and no
other statement on it certainly overwrites `d`. -/
def ReachesIn (g : FlowGraph) (r : Registry) (d : StmtId) (b : BlockId) : Prop :=
  ∃ q mid pre post, g.IsPath (q :: mid ++ [b]) ∧ g.stmts q = pre ++ d :: post ∧
    ∀ s ∈ post ++ g.along mid, s ≠ d → ¬ g.MustKills r s d

/-- Some path leads from an occurrence of `d` through `b`, and no other statement
on it certainly overwrites `d`. -/
def ReachesOut (g : FlowGraph) (r : Registry) (d : StmtId) (b : BlockId) : Prop :=
  ∃ q rest pre post, g.IsPath (q :: rest) ∧ (q :: rest).getLast? = some b ∧
    g.stmts q = pre ++ d :: post ∧ ∀ s ∈ post ++ g.along rest, s ≠ d → ¬ g.MustKills r s d

/-- On every path from the entry to where `b` is entered, `d` occurs and no other
statement after that may overwrite it. -/
def AvailableIn (g : FlowGraph) (r : Registry) (strict : Bool) (d : StmtId) (b : BlockId) : Prop :=
  ∀ qs, g.IsRun (qs ++ [b]) → Survives (g.MayKills r strict) d (g.along qs)

/-- On every path from the entry through `b`, `d` occurs and no other statement
after that may overwrite it. -/
def AvailableOut (g : FlowGraph) (r : Registry) (strict : Bool) (d : StmtId) (b : BlockId) :
    Prop :=
  ∀ qs, g.IsRun (qs ++ [b]) → Survives (g.MayKills r strict) d (g.along (qs ++ [b]))

end FlowGraph

/-! ## Definitions in a row -/

variable {g : FlowGraph} {r : Registry} {P : StmtId → Prop} {kills : StmtId → StmtId → Prop}
  {d : StmtId}

theorem not_ends_iff (hd : g.Defines d) {s : StmtId} :
    ¬ Ends g kills d.num s ↔ (s ≠ d → ¬ kills s d) := by
  have hne : s.num ≠ d.num ↔ s ≠ d := by
    cases s
    cases d
    simp
  constructor
  · intro h hs hk
    exact h ⟨hd, hne.mpr hs, hk⟩
  · rintro h ⟨-, hs, hk⟩
    exact h (hne.mp hs) hk

theorem lasts_begins_iff (hP : P d → g.Writes d) {ss : List StmtId}
    (hss : ∀ s ∈ ss, s ∈ g.allStmts) :
    Lasts (Begins P d.num) (Ends g kills d.num) ss ↔ P d ∧ FlowGraph.Survives kills d ss := by
  constructor
  · rintro ⟨pre, s, post, rfl, ⟨hn, hp⟩, hk⟩
    obtain rfl : s = d := by
      cases s
      cases d
      simp_all
    have hd : g.Defines s := ⟨hss s (by simp), hP hp⟩
    exact ⟨hp, pre, post, rfl, fun t ht => (not_ends_iff hd).mp (hk t ht)⟩
  · rintro ⟨hp, pre, post, rfl, hk⟩
    have hd : g.Defines d := ⟨hss d (by simp), hP hp⟩
    exact ⟨pre, d, post, rfl, ⟨rfl, hp⟩, fun t ht => (not_ends_iff hd).mpr (hk t ht)⟩

theorem FlowGraph.survives_along {qs : List BlockId} :
    FlowGraph.Survives kills d (g.along qs) ↔ ∃ before q rest pre post,
      qs = before ++ q :: rest ∧ g.stmts q = pre ++ d :: post ∧
      ∀ s ∈ post ++ g.along rest, s ≠ d → ¬ kills s d := by
  have row : ∀ ss, FlowGraph.Survives kills d ss ↔
      Lasts (· = d) (fun s => s ≠ d ∧ kills s d) ss := by
    intro ss
    simp [FlowGraph.Survives, Lasts]
  rw [row, FlowGraph.lasts_along]
  constructor
  · rintro ⟨before, q, rest, rfl, ⟨pre, s, post, hst, rfl, hpost⟩, hrest⟩
    refine ⟨before, q, rest, pre, post, rfl, hst, ?_⟩
    intro t ht hne hk
    rcases List.mem_append.mp ht with ht | ht
    · exact hpost t ht ⟨hne, hk⟩
    · exact hrest t ht ⟨hne, hk⟩
  · rintro ⟨before, q, rest, pre, post, rfl, hst, hk⟩
    refine ⟨before, q, rest, rfl, ⟨pre, d, post, hst, rfl, ?_⟩, ?_⟩
    · exact fun t ht h => hk t (List.mem_append_left _ ht) h.1 h.2
    · exact fun t ht h => hk t (List.mem_append_right _ ht) h.1 h.2

/-! ## Some path -/

variable {b : BlockId}

theorem FlowGraph.reachesIn_of_survives {qs : List BlockId} (hp : g.IsPath (qs ++ [b]))
    (h : FlowGraph.Survives (g.MustKills r) d (g.along qs)) : g.ReachesIn r d b := by
  obtain ⟨before, q, rest, pre, post, rfl, hst, hk⟩ := FlowGraph.survives_along.mp h
  rw [List.append_assoc] at hp
  exact ⟨q, rest, pre, post, hp.of_append, hst, hk⟩

theorem arrivesIn_iff :
    d.num ∈ Tracks.arrivesIn g (Begins g.Writes) (Ends g (g.MustKills r)) b ↔
      g.Writes d ∧ g.ReachesIn r d b := by
  constructor
  · rintro ⟨qs, hp, hl⟩
    have along : ∀ s ∈ g.along qs, s ∈ g.allStmts := by
      intro s hs
      exact hp.along_mem (by simp [hs])
    obtain ⟨hw, hsv⟩ := (lasts_begins_iff id along).mp hl
    exact ⟨hw, FlowGraph.reachesIn_of_survives hp hsv⟩
  · rintro ⟨hw, q, mid, pre, post, hp, hst, hk⟩
    refine ⟨q :: mid, hp, (lasts_begins_iff id ?_).mpr ⟨hw, ?_⟩⟩
    · intro s hs
      exact hp.along_mem (by rw [FlowGraph.along_append]; exact List.mem_append_left _ hs)
    · exact FlowGraph.survives_along.mpr ⟨[], q, mid, pre, post, rfl, hst, hk⟩

theorem arrivesOut_iff :
    d.num ∈ Tracks.arrivesOut g (Begins g.Writes) (Ends g (g.MustKills r)) b ↔
      g.Writes d ∧ g.ReachesOut r d b := by
  constructor
  · rintro ⟨qs, hp, hl⟩
    obtain ⟨hw, hsv⟩ := (lasts_begins_iff id fun s hs => hp.along_mem hs).mp hl
    obtain ⟨before, q, rest, pre, post, hqs, hst, hk⟩ := FlowGraph.survives_along.mp hsv
    have last : (q :: rest).getLast? = some b := by
      have whole : (before ++ q :: rest).getLast? = some b := by
        rw [← hqs]
        simp
      simpa [List.getLast?_append] using whole
    rw [hqs] at hp
    exact ⟨hw, q, rest, pre, post, hp.of_append, last, hst, hk⟩
  · rintro ⟨hw, q, rest, pre, post, hp, last, hst, hk⟩
    obtain ⟨qs, hqs⟩ := List.getLast?_eq_some_iff.mp last
    have hsv := FlowGraph.survives_along.mpr ⟨[], q, rest, pre, post, rfl, hst, hk⟩
    rw [List.nil_append, hqs] at hsv
    rw [hqs] at hp
    exact ⟨qs, hp, (lasts_begins_iff id fun s hs => hp.along_mem hs).mpr ⟨hw, hsv⟩⟩

/-- **Reaching definitions are exact.** Under every strategy, limit and reading
of overlap, what reaches a block are the definitions that some path carries there
without another statement overwriting them for certain. -/
theorem reaching_definitions_exact {options : Options} {strategy : Strategy} {sol : Solution}
    (h : analyse g r options strategy = .ok sol) (hb : b ∈ g.blocks) :
    ∃ ins outs, sol.in? .reach b = some ins ∧ sol.out? .reach b = some outs ∧
      ∀ d : StmtId, (d.num ∈ ins ↔ g.Writes d ∧ g.ReachesIn r d b) ∧
        (d.num ∈ outs ↔ g.Writes d ∧ g.ReachesOut r d b) := by
  obtain ⟨-, ins, outs, hin, hout, members⟩ := reach_arrives h hb
  refine ⟨ins, outs, hin, hout, ?_⟩
  intro d
  exact ⟨(members d.num).1.trans arrivesIn_iff, (members d.num).2.trans arrivesOut_iff⟩

/-- A loop between two blocks that share a statement. In the loop all of a
variable is written, and outside of it the first half. -/
def relay : FlowGraph := GraphTable.toFlowGraph {
  entry := ⟨0⟩, blocks := [⟨0⟩, ⟨1⟩, ⟨2⟩], rpo := [⟨0⟩, ⟨1⟩, ⟨2⟩]
  preds := [(⟨1⟩, [⟨0⟩, ⟨1⟩]), (⟨2⟩, [⟨1⟩])]
  succs := [(⟨0⟩, [⟨1⟩]), (⟨1⟩, [⟨1⟩, ⟨2⟩])]
  stmts := [(⟨0⟩, [⟨0⟩, ⟨3⟩]), (⟨1⟩, [⟨1⟩, ⟨2⟩]), (⟨2⟩, [⟨0⟩])]
  access := [(⟨0⟩, { certain := some ⟨4⟩ }), (⟨1⟩, { certain := some ⟨3⟩ }),
    (⟨2⟩, { certain := some ⟨5⟩, possible := .ofList [.globalMem] }),
    (⟨3⟩, { possible := .ofList [.globalMem] })] }

def relayEdits : List RegistryEdit :=
  [.declare "x" .localVar, .declare "y" .globalVar,
    .register { base := ⟨3⟩, kind := .exact, size := 8 },
    .register { base := ⟨3⟩, kind := .exact, size := 4 },
    .register { base := ⟨4⟩, kind := .exact, size := 4 }]

def relayRegistry : Registry := Registry.initial.run relayEdits

theorem relay_solved : ∃ sol,
    analyse relay relayRegistry { strict := true } .reversePostorder = .ok sol ∧
    sol.in? .reach ⟨2⟩ = some (.ofList [1, 2, 3]) ∧
    sol.out? .reach ⟨2⟩ = some (.ofList [0, 1, 2, 3]) ∧
    sol.in? .availReach ⟨2⟩ = some (.ofList [1, 2]) ∧
    sol.out? .availReach ⟨2⟩ = some (.ofList [0]) := by
  have answers : (analyse relay relayRegistry { strict := true } .reversePostorder).toOption.map
      (fun sol => (sol.in? .reach ⟨2⟩, sol.out? .reach ⟨2⟩, sol.in? .availReach ⟨2⟩,
        sol.out? .availReach ⟨2⟩)) =
      some (some (.ofList [1, 2, 3]), some (.ofList [0, 1, 2, 3]), some (.ofList [1, 2]),
        some (.ofList [0])) := by
    decide +kernel
  obtain ⟨sol, solved, answers⟩ := exists_solution answers
  exact ⟨sol, solved, by simpa only [Prod.mk.injEq] using answers⟩

/-- What no certain write touches goes through the loop, and what the loop
overwrites reaches its end only where it occurs again. -/
theorem relay_reaches :
    (∃ sol, analyse relay relayRegistry { strict := true } .reversePostorder = .ok sol) ∧
    ⟨2⟩ ∈ relay.blocks ∧ relay.ReachesIn relayRegistry ⟨3⟩ ⟨2⟩ ∧
    ¬ relay.ReachesIn relayRegistry ⟨0⟩ ⟨2⟩ ∧ relay.ReachesOut relayRegistry ⟨0⟩ ⟨2⟩ := by
  obtain ⟨sol, solved, hin, hout, -⟩ := relay_solved
  have hb : ⟨2⟩ ∈ relay.blocks := by decide
  obtain ⟨ins, outs, hin', hout', members⟩ := reaching_definitions_exact solved hb
  obtain rfl := Option.some.inj (hin.symm.trans hin')
  obtain rfl := Option.some.inj (hout.symm.trans hout')
  refine ⟨⟨sol, solved⟩, hb, ?_, ?_, ?_⟩
  · exact ((members ⟨3⟩).1.mp (by decide)).2
  · intro reaches
    have : 0 ∈ IdSet.ofList [1, 2, 3] := (members ⟨0⟩).1.mpr ⟨⟨_, rfl, rfl⟩, reaches⟩
    exact absurd this (by decide)
  · exact ((members ⟨0⟩).2.mp (by decide)).2

/-! ## Every path -/

/-- Staying on a stretch of every path from the entry is being certain and
surviving on it. Some path from the entry leads to the block, so there is one to
occur on. -/
theorem stays_iff_survives (wf : g.WellFormed) (hb : b ∈ g.blocks)
    {stretch : List BlockId → List StmtId}
    (hstretch : ∀ qs, ∀ s ∈ stretch qs, s ∈ g.along (qs ++ [b])) :
    (∀ qs, g.IsRun (qs ++ [b]) →
        Lasts (Begins g.IsCertain d.num) (Ends g kills d.num) (stretch qs)) ↔
      g.IsCertain d ∧ ∀ qs, g.IsRun (qs ++ [b]) → FlowGraph.Survives kills d (stretch qs) := by
  have lasts : ∀ qs, g.IsRun (qs ++ [b]) →
      (Lasts (Begins g.IsCertain d.num) (Ends g kills d.num) (stretch qs) ↔
        g.IsCertain d ∧ FlowGraph.Survives kills d (stretch qs)) := by
    intro qs hr
    exact lasts_begins_iff FlowGraph.IsCertain.writes fun s hs => hr.1.along_mem (hstretch qs s hs)
  constructor
  · intro h
    obtain ⟨qs, hr⟩ := FlowGraph.exists_isRun wf hb
    refine ⟨((lasts qs hr).mp (h qs hr)).1, ?_⟩
    intro qs hr
    exact ((lasts qs hr).mp (h qs hr)).2
  · rintro ⟨hc, h⟩ qs hr
    exact (lasts qs hr).mpr ⟨hc, h qs hr⟩

/-- **Available reaching definitions are exact.** Under every strategy and limit,
what is available at a block are the certain definitions that every path from the
entry has on it and after which no other statement may overwrite them. -/
theorem available_definitions_exact (edits : List RegistryEdit) {options : Options}
    {strategy : Strategy} {sol : Solution}
    (h : analyse g (Registry.initial.run edits) options strategy = .ok sol) (hb : b ∈ g.blocks) :
    ∃ ins outs, sol.in? .availReach b = some ins ∧ sol.out? .availReach b = some outs ∧
      ∀ d : StmtId,
        (d.num ∈ ins ↔ g.IsCertain d ∧
          g.AvailableIn (Registry.initial.run edits) options.strict d b) ∧
        (d.num ∈ outs ↔ g.IsCertain d ∧
          g.AvailableOut (Registry.initial.run edits) options.strict d b) := by
  obtain ⟨wf, ins, outs, hin, hout, members⟩ :=
    availReach_stays h (Registry.wellFormed_run edits) hb
  refine ⟨ins, outs, hin, hout, ?_⟩
  intro d
  constructor
  · refine (members d.num).1.trans (stays_iff_survives wf hb ?_)
    intro qs s hs
    simp [hs]
  · exact (members d.num).2.trans (stays_iff_survives wf hb fun _ _ hs => hs)

theorem relay_available :
    (∃ sol, analyse relay relayRegistry { strict := true } .reversePostorder = .ok sol) ∧
    ⟨2⟩ ∈ relay.blocks ∧ relay.AvailableIn relayRegistry true ⟨1⟩ ⟨2⟩ ∧
    ¬ relay.AvailableIn relayRegistry true ⟨0⟩ ⟨2⟩ ∧
    ¬ relay.AvailableOut relayRegistry true ⟨1⟩ ⟨2⟩ := by
  obtain ⟨sol, solved, -, -, hin, hout⟩ := relay_solved
  have hb : ⟨2⟩ ∈ relay.blocks := by decide
  obtain ⟨ins, outs, hin', hout', members⟩ :=
    available_definitions_exact relayEdits solved hb
  obtain rfl := Option.some.inj (hin.symm.trans hin')
  obtain rfl := Option.some.inj (hout.symm.trans hout')
  refine ⟨⟨sol, solved⟩, hb, ?_, ?_, ?_⟩
  · exact ((members ⟨1⟩).1.mp (by decide)).2
  · intro available
    have : 0 ∈ IdSet.ofList [1, 2] := (members ⟨0⟩).1.mpr ⟨⟨⟨4⟩, rfl⟩, available⟩
    exact absurd this (by decide)
  · intro available
    have : 1 ∈ IdSet.ofList [0] := (members ⟨1⟩).2.mpr ⟨⟨⟨3⟩, rfl⟩, available⟩
    exact absurd this (by decide)

end MemFlow

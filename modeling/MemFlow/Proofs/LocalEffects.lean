import MemFlow.Effect
import MemFlow.Proofs.Closures
import MemFlow.Proofs.Paths

/-!
# What the effects of blocks mean

One statement kills another by what the two write, and this is said here of the
graph and the registry alone. The effect of a block then holds what lasts to the
end of its statements and what one of them kills.
-/

namespace MemFlow

/-! ## Kills -/

namespace FlowGraph

def certain? (g : FlowGraph) (s : StmtId) : Option DescId := (g.access s).bind (·.certain)

def written (g : FlowGraph) (s : StmtId) : DescSet := (g.access s).elim ∅ (·.written)

def Writes (g : FlowGraph) (s : StmtId) : Prop := ∃ acc, g.access s = some acc ∧ acc.writes = true

/-- The statement writes some location for certain. -/
def IsCertain (g : FlowGraph) (s : StmtId) : Prop := ∃ a, g.certain? s = some a

/-- The certain write of `s` overwrites that of `d`. -/
def MustKills (g : FlowGraph) (r : Registry) (s d : StmtId) : Prop :=
  ∃ a b da db, g.certain? s = some a ∧ g.certain? d = some b ∧
    r.desc? a = some da ∧ r.desc? b = some db ∧ da.overwrites db = true

/-- Some location that `s` may write overlaps one that `d` may write. Under the
strict reading every write also touches the global and import sentinels. -/
def MayKills (g : FlowGraph) (r : Registry) (strict : Bool) (s d : StmtId) : Prop :=
  (∃ a ∈ g.written s, ∃ b ∈ g.written d, ∃ da db,
    r.desc? a = some da ∧ r.desc? b = some db ∧ da.overlaps db = true) ∨
  (strict = true ∧ g.Writes s ∧ (.globalMem ∈ g.written d ∨ .importMem ∈ g.written d))

/-- Some location that `s` may write overlaps one of the given `places`. Under the
strict reading every write also touches the global and import sentinels. -/
def Touches (g : FlowGraph) (r : Registry) (strict : Bool) (s : StmtId) (places : DescSet) : Prop :=
  (∃ a ∈ g.written s, ∃ b ∈ places, ∃ da db,
    r.desc? a = some da ∧ r.desc? b = some db ∧ da.overlaps db = true) ∨
  (strict = true ∧ g.Writes s ∧ (.globalMem ∈ places ∨ .importMem ∈ places))

def allStmts (g : FlowGraph) : List StmtId := g.along g.blocks

/-- A statement of the graph that writes. -/
def Defines (g : FlowGraph) (d : StmtId) : Prop := d ∈ g.allStmts ∧ g.Writes d

variable {g : FlowGraph}

theorem IsPath.along_mem {qs : List BlockId} (h : g.IsPath qs) {s : StmtId}
    (hs : s ∈ g.along qs) : s ∈ g.allStmts := by
  obtain ⟨q, hq, hsq⟩ := List.mem_flatMap.mp hs
  exact List.mem_flatMap.mpr ⟨q, h.1 q hq, hsq⟩

theorem IsCertain.writes {s : StmtId} (h : g.IsCertain s) : g.Writes s := by
  obtain ⟨a, ha⟩ := h
  obtain ⟨acc, hacc, hc⟩ := Option.bind_eq_some_iff.mp ha
  exact ⟨acc, hacc, by simp [Access.writes, hc]⟩

theorem mem_written_of_certain {s : StmtId} {a : DescId} (h : g.certain? s = some a) :
    a ∈ g.written s := by
  obtain ⟨acc, hacc, hc⟩ := Option.bind_eq_some_iff.mp h
  simp [written, Access.written, hacc, hc]

theorem writes_iff_written {s : StmtId} : g.Writes s ↔ ∃ a, a ∈ g.written s := by
  unfold Writes written
  cases g.access s with
  | none => simp
  | some acc =>
    cases hc : acc.certain with
    | some a =>
      exact iff_of_true ⟨acc, rfl, by simp [Access.writes, hc]⟩ ⟨a, by simp [Access.written, hc]⟩
    | none =>
      have : acc.possible.isEmpty = false ↔ ∃ a, a ∈ acc.possible := by
        rw [← Bool.not_eq_true, DescSet.isEmpty_iff]
        simp
      simpa [Access.writes, Access.written, hc] using this

theorem MustKills.writes {r : Registry} {s d : StmtId} (h : g.MustKills r s d) : g.Writes s := by
  obtain ⟨a, -, -, -, ha, -⟩ := h
  exact IsCertain.writes ⟨a, ha⟩

theorem Touches.writes {r : Registry} {strict : Bool} {s : StmtId} {places : DescSet}
    (h : g.Touches r strict s places) : g.Writes s := by
  rcases h with ⟨a, ha, -⟩ | ⟨-, hw, -⟩
  · exact writes_iff_written.mpr ⟨a, ha⟩
  · exact hw

theorem touches_iff_closure {r : Registry} {strict : Bool} {s : StmtId} {places : DescSet} :
    g.Touches r strict s places ↔
      ∃ e, (∃ a ∈ g.written s, r.InClosure strict a e) ∧ e ∈ places := by
  constructor
  · rintro (⟨a, ha, b, hb, da, db, hda, hdb, ho⟩ | ⟨hs, hw, hd⟩)
    · exact ⟨b, ⟨a, ha, Or.inl ⟨da, db, hda, hdb, ho⟩⟩, hb⟩
    · obtain ⟨a, ha⟩ := writes_iff_written.mp hw
      rcases hd with hd | hd
      · exact ⟨_, ⟨a, ha, Or.inr ⟨hs, Or.inl rfl⟩⟩, hd⟩
      · exact ⟨_, ⟨a, ha, Or.inr ⟨hs, Or.inr rfl⟩⟩, hd⟩
  · rintro ⟨e, ⟨a, ha, hin⟩, he⟩
    rcases hin with ⟨da, db, hda, hdb, ho⟩ | ⟨hs, rfl | rfl⟩
    · exact Or.inl ⟨a, ha, e, he, da, db, hda, hdb, ho⟩
    · exact Or.inr ⟨hs, writes_iff_written.mpr ⟨a, ha⟩, Or.inl he⟩
    · exact Or.inr ⟨hs, writes_iff_written.mpr ⟨a, ha⟩, Or.inr he⟩

theorem mayKills_iff_touches {r : Registry} {strict : Bool} {s d : StmtId} :
    g.MayKills r strict s d ↔ g.Touches r strict s (g.written d) := Iff.rfl

end FlowGraph

/-! ## The inventory -/

namespace Inventory

variable {g : FlowGraph} {r : Registry} {inv : Inventory}

theorem definition?_eq_some {s : StmtId} {d : Definition} :
    definition? g s = some d ↔ g.Writes s ∧ d = ⟨s, g.certain? s, g.written s⟩ := by
  unfold definition? FlowGraph.Writes FlowGraph.certain? FlowGraph.written
  cases g.access s with
  | none => simp
  | some acc =>
    cases hw : acc.writes with
    | false => simp [hw]
    | true => simpa [hw] using eq_comm

theorem eq_of_ofFlowGraph (h : ofFlowGraph g r = .ok inv) : inv = ofStmts g g.allStmts := by
  simp only [ofFlowGraph] at h
  split at h
  · cases h
  · cases h
    rfl

theorem mem_defs (h : ofFlowGraph g r = .ok inv) {d : Definition} :
    d ∈ inv.defs ↔ ∃ s, g.Defines s ∧ d = ⟨s, g.certain? s, g.written s⟩ := by
  rw [eq_of_ofFlowGraph h]
  simp only [ofStmts, List.mem_filterMap, List.mem_eraseDups, definition?_eq_some,
    FlowGraph.Defines, and_assoc]

theorem def?_eq (h : ofFlowGraph g r = .ok inv) {s : StmtId} (hs : s ∈ g.allStmts) :
    inv.def? s = definition? g s := by
  unfold def?
  cases hd : definition? g s with
  | none =>
    rw [List.find?_eq_none]
    intro d hmem he
    obtain ⟨t, ⟨-, hw⟩, rfl⟩ := (mem_defs h).mp hmem
    obtain rfl : t = s := by simpa using he
    have : definition? g t = some _ := definition?_eq_some.mpr ⟨hw, rfl⟩
    simp [hd] at this
  | some d =>
    obtain ⟨hw, rfl⟩ := definition?_eq_some.mp hd
    have hmem : ⟨s, g.certain? s, g.written s⟩ ∈ inv.defs := (mem_defs h).mpr ⟨s, ⟨hs, hw⟩, rfl⟩
    cases hf : inv.defs.find? (·.stmt = s) with
    | none =>
      rw [List.find?_eq_none] at hf
      exact absurd (by simp) (hf _ hmem)
    | some e =>
      obtain ⟨t, -, rfl⟩ := (mem_defs h).mp (List.mem_of_find?_eq_some hf)
      obtain rfl : t = s := by simpa using List.find?_some hf
      rfl

end Inventory

/-! ## One statement -/

/-- Definition `v` begins where its statement stands. -/
def Begins (P : StmtId → Prop) (v : Nat) (s : StmtId) : Prop := s.num = v ∧ P s

/-- A definition of the graph is ended by any other statement that kills it. -/
def Ends (g : FlowGraph) (kills : StmtId → StmtId → Prop) (v : Nat) (s : StmtId) : Prop :=
  g.Defines ⟨v⟩ ∧ s.num ≠ v ∧ kills s ⟨v⟩

namespace Effect

variable {g : FlowGraph} {r : Registry} {inv : Inventory} {strict : Bool}
  {m m' : ClosureMemo} {s : StmtId} {effect : Effect}

theorem mustKills_eq_true {k v : Definition} : mustKills r k v = .ok true ↔
    ∃ a b da db, k.certain = some a ∧ v.certain = some b ∧
      r.desc? a = some da ∧ r.desc? b = some db ∧ da.overwrites db = true := by
  unfold mustKills
  cases k.certain with
  | none => simp
  | some a =>
    cases v.certain with
    | none => simp
    | some b =>
      simp only [← Registry.get_eq_ok]
      cases ha : r.get a <;> cases hb : r.get b <;> simp [ha, hb]

theorem mem_mustVictims {k : Definition} {vs : List Definition} {lost : List Nat}
    (h : mustVictims r k vs = .ok lost) (v : Nat) :
    v ∈ lost ↔ ∃ d ∈ vs, d.stmt.num = v ∧ mustKills r k d = .ok true := by
  induction vs generalizing lost with
  | nil =>
    cases h
    simp
  | cons d vs ih =>
    simp only [mustVictims] at h
    split at h
    · cases h
    · cases h
    · rename_i hit rest hk hr
      cases h
      cases hit <;> simp [hk, ih hr, eq_comm]

theorem ofDefinition_spec {d : Definition} {closure : DescSet}
    (h : ofDefinition g inv r d closure = .ok effect) (v : Nat) :
    (v ∈ effect.mayGen ↔ d.stmt.num = v) ∧
    (v ∈ effect.mustGen ↔ d.stmt.num = v ∧ d.certain.isSome = true) ∧
    (v ∈ effect.mustKilled ↔
      ∃ e ∈ inv.defs, e.stmt ≠ d.stmt ∧ e.stmt.num = v ∧ mustKills r d e = .ok true) ∧
    (v ∈ effect.mayKilled ↔
      ∃ e ∈ inv.defs, e.stmt ≠ d.stmt ∧ e.stmt.num = v ∧ closure.meets e.written = true) := by
  simp only [ofDefinition] at h
  split at h
  · cases h
  · rename_i lost hl
    cases h
    refine ⟨by simp [eq_comm], ?_, ?_, ?_⟩
    · cases hc : d.certain <;> simp [eq_comm]
    · simp only [IdSet.mem_ofList, mem_mustVictims hl, List.mem_filter, decide_eq_true_eq,
        and_assoc]
    · simp only [IdSet.mem_ofList, mayVictims, List.mem_map, List.mem_filter, decide_eq_true_eq,
        and_assoc]
      exact exists_congr fun e => and_congr_right fun _ => and_congr_right fun _ => and_comm

theorem exists_def_iff (hinv : Inventory.ofFlowGraph g r = .ok inv) {v : Nat}
    {P : Definition → Prop} :
    (∃ e ∈ inv.defs, e.stmt ≠ s ∧ e.stmt.num = v ∧ P e) ↔
      g.Defines ⟨v⟩ ∧ s.num ≠ v ∧ P ⟨⟨v⟩, g.certain? ⟨v⟩, g.written ⟨v⟩⟩ := by
  constructor
  · rintro ⟨e, he, hne, rfl, hp⟩
    obtain ⟨t, ht, rfl⟩ := (Inventory.mem_defs hinv).mp he
    exact ⟨ht, fun h => hne (by cases s; cases t; simp_all), hp⟩
  · rintro ⟨ht, hne, hp⟩
    exact ⟨_, (Inventory.mem_defs hinv).mpr ⟨⟨v⟩, ht, rfl⟩, fun h => hne (by rw [← h]), rfl, hp⟩

theorem ofStmt_idle (hinv : Inventory.ofFlowGraph g r = .ok inv) (hs : s ∈ g.allStmts)
    (hw : ¬ g.Writes s) (h : ofStmt g inv m s = .ok (m', effect)) :
    m' = m ∧ effect = { genExpr := .ofList ((g.exprs s).map (·.num)) } := by
  have hd : inv.def? s = none := by
    rw [Inventory.def?_eq hinv hs, Option.eq_none_iff_forall_ne_some]
    intro d hd
    exact hw (Inventory.definition?_eq_some.mp hd).1
  simp only [ofStmt, hd, Except.ok.injEq, Prod.mk.injEq] at h
  exact ⟨h.1.symm, h.2.symm⟩

theorem ofStmt_writing (hinv : Inventory.ofFlowGraph g r = .ok inv) (hs : s ∈ g.allStmts)
    (hw : g.Writes s) (h : ofStmt g inv m s = .ok (m', effect)) :
    ∃ closure, m.askSet (g.written s) = (m', .ok closure) ∧
      ofDefinition g inv m.registry ⟨s, g.certain? s, g.written s⟩ closure = .ok effect := by
  have hd : inv.def? s = some ⟨s, g.certain? s, g.written s⟩ := by
    rw [Inventory.def?_eq hinv hs]
    exact Inventory.definition?_eq_some.mpr ⟨hw, rfl⟩
  simp only [ofStmt, hd] at h
  split at h
  · cases h
  · rename_i closure hask
    split at h
    · cases h
    · rename_i hdef
      cases h
      exact ⟨closure, hask, hdef⟩

/-- **What one statement of the graph does.** -/
theorem ofStmt_spec (hinv : Inventory.ofFlowGraph g r = .ok inv) (hm : m.Answers r strict)
    (hs : s ∈ g.allStmts) (h : ofStmt g inv m s = .ok (m', effect)) :
    m'.Answers r strict ∧ ∀ v,
      (v ∈ effect.mayGen ↔ Begins g.Writes v s) ∧
      (v ∈ effect.mustGen ↔ Begins g.IsCertain v s) ∧
      (v ∈ effect.mustKilled ↔ Ends g (g.MustKills r) v s) ∧
      (r.WellFormed → (v ∈ effect.mayKilled ↔ Ends g (g.MayKills r strict) v s)) := by
  by_cases hw : g.Writes s
  · obtain ⟨closure, hask, hdef⟩ := ofStmt_writing hinv hs hw h
    obtain ⟨hm', members⟩ := ClosureMemo.askSet_spec hask hm
    rw [hm.registry_eq] at hdef
    refine ⟨hm', ?_⟩
    intro v
    obtain ⟨mayGen, mustGen, mustKilled, mayKilled⟩ := ofDefinition_spec hdef v
    refine ⟨?_, ?_, ?_, ?_⟩
    · rw [mayGen]
      exact (and_iff_left hw).symm
    · rw [mustGen, Option.isSome_iff_exists]
      exact Iff.rfl
    · rw [mustKilled, exists_def_iff hinv, mustKills_eq_true]
      exact Iff.rfl
    · intro wf
      rw [mayKilled, exists_def_iff hinv, DescSet.meets_iff, Ends, FlowGraph.mayKills_iff_touches,
        FlowGraph.touches_iff_closure]
      simp only [members wf]
  · obtain ⟨rfl, rfl⟩ := ofStmt_idle hinv hs hw h
    refine ⟨hm, ?_⟩
    intro v
    refine ⟨?_, ?_, ?_, fun _ => ?_⟩ <;> refine iff_of_false (IdSet.not_mem_empty v) ?_
    · exact fun h => hw h.2
    · exact fun h => hw h.2.writes
    · exact fun h => hw h.2.2.writes
    · exact fun h => hw (FlowGraph.mayKills_iff_touches.mp h.2.2).writes

/-! ## Statements in a row -/

/-- Two sets of an effect that go together: what begins and what is ended. -/
structure Channel where
  gen : Effect → IdSet
  kill : Effect → IdSet
  gen_empty : gen {} = ∅
  kill_empty : kill {} = ∅
  gen_andThen : ∀ a b : Effect, gen (a.andThen b) = (gen a \ kill b) ∪ gen b
  kill_andThen : ∀ a b : Effect, kill (a.andThen b) = kill a ∪ kill b

namespace Channel

/-- Writes that may survive, and those certainly overwritten. -/
def reaching : Channel := ⟨(·.mayGen), (·.mustKilled), rfl, rfl, fun _ _ => rfl, fun _ _ => rfl⟩

/-- Certain writes that survive, and those that may be overwritten. -/
def available : Channel := ⟨(·.mustGen), (·.mayKilled), rfl, rfl, fun _ _ => rfl, fun _ _ => rfl⟩

/-- The effect holds what lasts to the end of the statements, and what one of
them ends. -/
def Means (ch : Channel) (gen kill : Nat → StmtId → Prop) (effect : Effect) (ss : List StmtId) :
    Prop :=
  ∀ v, (v ∈ ch.gen effect ↔ Lasts (gen v) (kill v) ss) ∧ (v ∈ ch.kill effect ↔ ∃ s ∈ ss, kill v s)

variable {ch : Channel} {gen kill : Nat → StmtId → Prop}

theorem means_nil : ch.Means gen kill {} [] := by
  intro v
  simp [ch.gen_empty, ch.kill_empty, not_lasts_nil]

theorem means_singleton (h : ∀ v, (v ∈ ch.gen effect ↔ gen v s) ∧ (v ∈ ch.kill effect ↔ kill v s)) :
    ch.Means gen kill effect [s] := by
  intro v
  rw [(h v).1, (h v).2, lasts_cons]
  simp [not_lasts_nil]

theorem Means.andThen {a b : Effect} {ss ts : List StmtId} (ha : ch.Means gen kill a ss)
    (hb : ch.Means gen kill b ts) : ch.Means gen kill (a.andThen b) (ss ++ ts) := by
  intro v
  obtain ⟨ga, ka⟩ := ha v
  obtain ⟨gb, kb⟩ := hb v
  constructor
  · rw [ch.gen_andThen, IdSet.mem_union, IdSet.mem_sdiff, ga, gb, kb, lasts_append, or_comm]
    simp
  · rw [ch.kill_andThen, IdSet.mem_union, ka, kb]
    simp [or_and_right, exists_or]

theorem Means.gen_subset {gen' kill' : Nat → StmtId → Prop} {a b : Effect} {ss : List StmtId}
    (ha : ch.Means gen kill a ss) (hb : ch.Means gen' kill' b ss)
    (hg : ∀ s ∈ ss, ∀ v, gen v s → gen' v s) (hk : ∀ s ∈ ss, ∀ v, kill' v s → kill v s) :
    ch.gen a ⊆ ch.gen b := by
  intro v hv
  have lasts := (ha v).1.mp hv
  exact (hb v).1.mpr (lasts.imp (fun s hs => hg s hs v) (fun s hs => hk s hs v))

theorem Means.kill_subset {gen' kill' : Nat → StmtId → Prop} {a b : Effect} {ss : List StmtId}
    (ha : ch.Means gen kill a ss) (hb : ch.Means gen' kill' b ss)
    (hk : ∀ s ∈ ss, ∀ v, kill v s → kill' v s) : ch.kill a ⊆ ch.kill b := by
  intro v hv
  obtain ⟨s, hs, killed⟩ := (ha v).2.mp hv
  exact (hb v).2.mpr ⟨s, hs, hk s hs v killed⟩

/-- On every statement of the graph the channel is about `gen` and `kill`,
whatever the memo was asked before. -/
def Tells (ch : Channel) (g : FlowGraph) (inv : Inventory) (r : Registry) (strict : Bool)
    (gen kill : Nat → StmtId → Prop) : Prop :=
  ∀ s ∈ g.allStmts, ∀ {m m' : ClosureMemo} {effect : Effect}, m.Answers r strict →
    ofStmt g inv m s = .ok (m', effect) → m'.Answers r strict ∧ ch.Means gen kill effect [s]

theorem reaching_tells (hinv : Inventory.ofFlowGraph g r = .ok inv) (strict : Bool) :
    reaching.Tells g inv r strict (Begins g.Writes) (Ends g (g.MustKills r)) := by
  intro s hs m m' effect hm h
  obtain ⟨hm', spec⟩ := ofStmt_spec hinv hm hs h
  exact ⟨hm', means_singleton fun v => ⟨(spec v).1, (spec v).2.2.1⟩⟩

theorem available_tells (hinv : Inventory.ofFlowGraph g r = .ok inv) (wf : r.WellFormed)
    (strict : Bool) :
    available.Tells g inv r strict (Begins g.IsCertain) (Ends g (g.MayKills r strict)) := by
  intro s hs m m' effect hm h
  obtain ⟨hm', spec⟩ := ofStmt_spec hinv hm hs h
  exact ⟨hm', means_singleton fun v => ⟨(spec v).2.1, (spec v).2.2.2 wf⟩⟩

theorem means_ofStmts (tells : ch.Tells g inv r strict gen kill) {ss : List StmtId}
    (hss : ∀ s ∈ ss, s ∈ g.allStmts) {before : List StmtId} {acc : Effect}
    (hacc : ch.Means gen kill acc before) (hm : m.Answers r strict)
    (h : ofStmts g inv m acc ss = .ok (m', effect)) :
    m'.Answers r strict ∧ ch.Means gen kill effect (before ++ ss) := by
  induction ss generalizing m acc before with
  | nil =>
    cases h
    exact ⟨hm, by simpa using hacc⟩
  | cons s ss ih =>
    simp only [ofStmts] at h
    split at h
    · cases h
    · rename_i m₁ e hs
      obtain ⟨hm₁, he⟩ := tells s (hss s List.mem_cons_self) hm hs
      have later := ih (fun t ht => hss t (List.mem_cons_of_mem s ht)) (hacc.andThen he) hm₁ h
      simpa using later

theorem means_ofBlock (tells : ch.Tells g inv r strict gen kill) {b : BlockId}
    (hb : b ∈ g.blocks) (hm : m.Answers r strict) (h : ofBlock g inv m b = .ok (m', effect)) :
    m'.Answers r strict ∧ ch.Means gen kill effect (g.stmts b) :=
  means_ofStmts tells (fun _ hs => List.mem_flatMap.mpr ⟨b, hb, hs⟩) means_nil hm h

theorem means_ofBlocks (tells : ch.Tells g inv r strict gen kill) {bs : List BlockId}
    (hbs : ∀ b ∈ bs, b ∈ g.blocks) {effects : List Effect} (hm : m.Answers r strict)
    (h : ofBlocks g inv m bs = .ok effects) :
    List.Forall₂ (fun b e => ch.Means gen kill e (g.stmts b)) bs effects := by
  induction bs generalizing m effects with
  | nil =>
    cases h
    exact .nil
  | cons b bs ih =>
    simp only [ofBlocks] at h
    split at h
    · cases h
    · rename_i m₁ e hb
      split at h
      · cases h
      · rename_i rest hr
        cases h
        obtain ⟨hm₁, he⟩ := means_ofBlock tells (hbs b List.mem_cons_self) hm hb
        exact .cons he (ih (fun c hc => hbs c (List.mem_cons_of_mem b hc)) hm₁ hr)

theorem means_ofBlocksApart (tells : ch.Tells g inv r strict gen kill) {bs : List BlockId}
    (hbs : ∀ b ∈ bs, b ∈ g.blocks) {effects : List Effect} (hm : m.Answers r strict)
    (h : ofBlocksApart g inv m bs = .ok effects) :
    List.Forall₂ (fun b e => ch.Means gen kill e (g.stmts b)) bs effects := by
  induction bs generalizing effects with
  | nil =>
    cases h
    exact .nil
  | cons b bs ih =>
    simp only [ofBlocksApart] at h
    split at h
    · cases h
    · rename_i m₁ e hb
      split at h
      · cases h
      · rename_i rest hr
        cases h
        obtain ⟨-, he⟩ := means_ofBlock tells (hbs b List.mem_cons_self) hm hb
        exact .cons he (ih (fun c hc => hbs c (List.mem_cons_of_mem b hc)) hr)

/-- **The effects of a graph mean what its statements do**, whether or not one
memo is carried from block to block. -/
theorem means_ofFlowGraph (tells : ch.Tells g inv r strict gen kill) {parallel : Bool}
    {effects : List Effect} (h : ofFlowGraph g inv r strict parallel = .ok effects) :
    List.Forall₂ (fun b e => ch.Means gen kill e (g.stmts b)) g.blocks effects := by
  have hm := ClosureMemo.answers_new r strict
  simp only [ofFlowGraph] at h
  split at h
  · exact means_ofBlocksApart tells (fun _ hb => hb) hm h
  · exact means_ofBlocks tells (fun _ hb => hb) hm h

end Channel

end Effect

end MemFlow

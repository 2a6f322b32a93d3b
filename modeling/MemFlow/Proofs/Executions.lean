import MemFlow.Proofs.LocalEffects

/-!
# Executions byte by byte

Memory is the bytes of all variables, and a descriptor stands for some of them;
two that share a byte overlap. Executing a statement writes every byte of its
certain write and any bytes of its possible writes.
-/

namespace MemFlow

/-! ## Bytes -/

/-- A byte of a variable. -/
structure Byte where
  var : VarId
  offset : Nat
  bounded : offset < addressLimit

/-- Where every variable lives, in agreement with a registry. -/
structure Layout (r : Registry) where
  storage : VarId → Storage
  agrees : ∀ v x, r.var? v = some x → storage v = x.storage

def Registry.layout (r : Registry) : Layout r where
  storage v := (r.var? v).elim .localVar (·.storage)
  agrees v x h := by simp [h]

/-- The bytes a descriptor stands for. -/
def Descriptor.footprint (storage : VarId → Storage) (desc : Descriptor) : Set Byte :=
  match desc.sentinel?, desc.kind with
  | some s, _ => {x | s.includes (storage x.var) = true}
  | none, .unbound => {x | x.var = desc.base}
  | none, _ =>
    {x | x.var = desc.base ∧ desc.offset ≤ x.offset ∧ x.offset < desc.offset + desc.size}

variable {g : FlowGraph} {r : Registry}

def Layout.bytes (l : Layout r) (d : DescId) : Set Byte :=
  {x | ∃ desc, r.desc? d = some desc ∧ x ∈ desc.footprint l.storage}

theorem Descriptor.mem_footprint_sentinel {desc : Descriptor} {s : Sentinel}
    (h : desc.sentinel? = some s) (storage : VarId → Storage) (x : Byte) :
    x ∈ desc.footprint storage ↔ s.includes (storage x.var) = true := by
  simp only [Descriptor.footprint, h]
  exact Iff.rfl

theorem Registry.Ordinary.mem_footprint {desc : Descriptor} (h : r.Ordinary desc)
    (storage : VarId → Storage) (x : Byte) : x ∈ desc.footprint storage ↔
      x.var = desc.base ∧
        (desc.kind = .unbound ∨ (desc.offset ≤ x.offset ∧ x.offset < desc.stop)) := by
  cases hk : desc.kind with
  | unbound =>
    simp only [Descriptor.footprint, h.not_sentinel, hk, true_or, and_true]
    exact Iff.rfl
  | exact | range =>
    obtain ⟨-, stop⟩ := h.extent (by simp [hk])
    simp only [Descriptor.footprint, h.not_sentinel, hk, stop, reduceCtorEq, false_or]
    exact Iff.rfl

theorem Registry.WellFormed.mem_footprint (wf : r.WellFormed) {d : DescId} {desc : Descriptor}
    (h : r.desc? d = some desc) (hd : desc.isDefinite = true) (storage : VarId → Storage)
    (x : Byte) : x ∈ desc.footprint storage ↔
      x.var = desc.base ∧ desc.offset ≤ x.offset ∧ x.offset < desc.stop := by
  have kind : desc.kind = .exact := by
    simp only [Descriptor.isDefinite, Descriptor.isExact, Bool.and_eq_true,
      decide_eq_true_eq] at hd
    exact hd.1
  rw [(wf.ordinary h (wf.sentinel?_of_exact h kind)).mem_footprint, kind]
  simp

theorem Registry.WellFormed.footprint_of_overwrites (wf : r.WellFormed) {a b : DescId}
    {da db : Descriptor} (ha : r.desc? a = some da) (hb : r.desc? b = some db)
    (h : da.overwrites db = true) (storage : VarId → Storage) :
    db.footprint storage ⊆ da.footprint storage := by
  simp only [Descriptor.overwrites, Bool.and_eq_true, decide_eq_true_eq] at h
  obtain ⟨⟨⟨⟨definite, definite'⟩, base⟩, start⟩, stop⟩ := h
  intro x hx
  rw [wf.mem_footprint hb definite'] at hx
  rw [wf.mem_footprint ha definite]
  exact ⟨hx.1.trans base.symm, start.trans hx.2.1, hx.2.2.trans_le stop⟩

theorem Layout.storage_of_mem (l : Layout r) {desc : Descriptor} (h : r.Ordinary desc) {x : Byte}
    (hx : x ∈ desc.footprint l.storage) : l.storage x.var = desc.storage := by
  obtain ⟨v, hv, storage, -⟩ := h.declared
  rw [((h.mem_footprint l.storage x).mp hx).1, l.agrees _ v hv, storage]

/-- **Locations that share a byte overlap.** -/
theorem Registry.WellFormed.overlaps_of_mem (wf : r.WellFormed) {a b : DescId}
    {da db : Descriptor} (ha : r.desc? a = some da) (hb : r.desc? b = some db) (l : Layout r)
    {x : Byte} (hxa : x ∈ da.footprint l.storage) (hxb : x ∈ db.footprint l.storage) :
    da.overlaps db = true := by
  unfold Descriptor.overlaps
  cases sa : da.sentinel? with
  | some s =>
    rw [Descriptor.mem_footprint_sentinel sa] at hxa
    cases sb : db.sentinel? with
    | some t => rfl
    | none =>
      rw [l.storage_of_mem (wf.ordinary hb sb) hxb] at hxa
      exact hxa
  | none =>
    have oa := wf.ordinary ha sa
    cases sb : db.sentinel? with
    | some t =>
      rw [Descriptor.mem_footprint_sentinel sb, l.storage_of_mem oa hxa] at hxb
      exact hxb
    | none =>
      have ob := wf.ordinary hb sb
      rw [oa.mem_footprint] at hxa
      rw [ob.mem_footprint] at hxb
      have base : da.base = db.base := hxa.1.symm.trans hxb.1
      simp only [base, decide_true, Bool.true_and, Bool.or_eq_true, Bool.and_eq_true,
        decide_eq_true_eq]
      rcases hxa.2 with unbound | ⟨start, stop⟩
      · exact Or.inl (Or.inl unbound)
      · rcases hxb.2 with unbound | ⟨start', stop'⟩
        · exact Or.inl (Or.inr unbound)
        · exact Or.inr ⟨by omega, by omega⟩

/-! ## Statements -/

namespace FlowGraph

/-- The bytes a statement writes for certain. -/
def certainBytes (g : FlowGraph) (l : Layout r) (s : StmtId) : Set Byte :=
  {x | ∃ a, g.certain? s = some a ∧ x ∈ l.bytes a}

/-- The bytes of the locations a statement may write. -/
def possibleBytes (g : FlowGraph) (l : Layout r) (s : StmtId) : Set Byte :=
  {x | ∃ acc, g.access s = some acc ∧ ∃ a ∈ acc.possible, x ∈ l.bytes a}

/-- A statement may be executed so that it writes just these bytes. -/
def Performs (g : FlowGraph) (l : Layout r) (s : StmtId) (w : Set Byte) : Prop :=
  g.certainBytes l s ⊆ w ∧ w ⊆ g.certainBytes l s ∪ g.possibleBytes l s

/-- What is executed along some blocks, with the bytes that each statement
writes. -/
def Executes (g : FlowGraph) (l : Layout r) (qs : List BlockId)
    (trace : List (StmtId × Set Byte)) : Prop :=
  trace.map (·.1) = g.along qs ∧ ∀ p ∈ trace, g.Performs l p.1 p.2

theorem performs_certainBytes (l : Layout r) (s : StmtId) : g.Performs l s (g.certainBytes l s) :=
  ⟨fun _ hx => hx, fun _ hx => Or.inl hx⟩

theorem exists_executes (l : Layout r) (qs : List BlockId) : ∃ trace, g.Executes l qs trace := by
  refine ⟨(g.along qs).map fun s => (s, g.certainBytes l s), by simp [Function.comp_def], ?_⟩
  intro p hp
  obtain ⟨s, -, rfl⟩ := List.mem_map.mp hp
  exact performs_certainBytes l s

theorem Performs.written {l : Layout r} {s : StmtId} {w : Set Byte} (h : g.Performs l s w)
    {x : Byte} (hx : x ∈ w) : ∃ a ∈ g.written s, x ∈ l.bytes a := by
  rcases h.2 hx with ⟨a, ha, hxa⟩ | ⟨acc, hacc, a, ha, hxa⟩
  · exact ⟨a, mem_written_of_certain ha, hxa⟩
  · refine ⟨a, ?_, hxa⟩
    cases hc : acc.certain <;> simp [FlowGraph.written, Access.written, hacc, hc, ha]

theorem Performs.writes {l : Layout r} {s : StmtId} {w : Set Byte} (h : g.Performs l s w)
    {x : Byte} (hx : x ∈ w) : g.Writes s := by
  obtain ⟨a, ha, -⟩ := h.written hx
  exact writes_iff_written.mpr ⟨a, ha⟩

/-- A statement that writes a byte of some location touches it, under either
reading of overlap. -/
theorem Performs.touches (wf : r.WellFormed) {l : Layout r} {s : StmtId} {w : Set Byte}
    (h : g.Performs l s w) {x : Byte} (hx : x ∈ w) {places : DescSet} {b : DescId}
    (hb : b ∈ places) (hxb : x ∈ l.bytes b) (strict : Bool) : g.Touches r strict s places := by
  obtain ⟨a, ha, da, hda, hxa⟩ := h.written hx
  obtain ⟨db, hdb, hxb⟩ := hxb
  exact Or.inl ⟨a, ha, b, hb, da, db, hda, hdb, wf.overlaps_of_mem hda hdb l hxa hxb⟩

/-- An execution taken apart at a statement of the blocks that it runs along. -/
theorem Executes.split {l : Layout r} {qs : List BlockId} {trace : List (StmtId × Set Byte)}
    (h : g.Executes l qs trace) {pre post : List StmtId} {s : StmtId}
    (hqs : g.along qs = pre ++ s :: post) :
    ∃ before w after, trace = before ++ (s, w) :: after ∧ after.map (·.1) = post ∧
      ∀ p ∈ (s, w) :: after, g.Performs l p.1 p.2 := by
  obtain ⟨order, performs⟩ := h
  rw [hqs, List.map_eq_append_iff] at order
  obtain ⟨before, rest, rfl, -, order⟩ := order
  obtain ⟨p, after, rfl, rfl, hpost⟩ := List.map_eq_cons_iff.mp order
  refine ⟨before, p.2, after, rfl, hpost, ?_⟩
  intro q hq
  exact performs q (List.mem_append_right _ hq)

theorem MustKills.certainBytes_subset (wf : r.WellFormed) {s d : StmtId}
    (h : g.MustKills r s d) (l : Layout r) : g.certainBytes l d ⊆ g.certainBytes l s := by
  obtain ⟨a, b, da, db, ha, hb, hda, hdb, ho⟩ := h
  rintro x ⟨b', hb', desc, hdesc, hx⟩
  obtain rfl : b = b' := Option.some.inj (hb.symm.trans hb')
  obtain rfl : db = desc := Option.some.inj (hdb.symm.trans hdesc)
  exact ⟨a, ha, da, hda, wf.footprint_of_overwrites hda hdb ho l.storage hx⟩

end FlowGraph

/-- The byte was written, and by this statement last. -/
def LastWriter (trace : List (StmtId × Set Byte)) (x : Byte) (d : StmtId) : Prop :=
  ∃ pre w post, trace = pre ++ (d, w) :: post ∧ x ∈ w ∧ ∀ p ∈ post, x ∉ p.2

namespace LastWriter

variable {trace : List (StmtId × Set Byte)} {x : Byte} {d : StmtId}

theorem prepend (before : List (StmtId × Set Byte)) (h : LastWriter trace x d) :
    LastWriter (before ++ trace) x d := by
  obtain ⟨pre, w, post, rfl, hx, later⟩ := h
  exact ⟨before ++ pre, w, post, by simp, hx, later⟩

theorem wrote (h : LastWriter trace x d) : ∃ w, (d, w) ∈ trace ∧ x ∈ w := by
  obtain ⟨pre, w, post, rfl, hx, -⟩ := h
  exact ⟨w, by simp, hx⟩

theorem of_written (h : ∃ p ∈ trace, x ∈ p.2) : ∃ d, LastWriter trace x d := by
  induction trace with
  | nil => simp at h
  | cons q trace ih =>
    by_cases later : ∃ p ∈ trace, x ∈ p.2
    · obtain ⟨d, last⟩ := ih later
      exact ⟨d, last.prepend [q]⟩
    · have hq : x ∈ q.2 := by
        rcases List.or_exists_of_exists_mem_cons h with hq | written
        · exact hq
        · exact absurd written later
      exact ⟨q.1, [], q.2, trace, rfl, hq, fun p hp hx => later ⟨p, hp, hx⟩⟩

end LastWriter

end MemFlow

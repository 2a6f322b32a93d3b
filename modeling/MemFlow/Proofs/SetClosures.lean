import MemFlow.Proofs.Checks

/-!
# Closures of descriptors and of sets

A closure is appended to a set that may already hold something. Appending that of one
descriptor adds everything registered that overlaps it, and nothing else. For a set, a
member that stands for a whole variable is closed in place of the other members there, and
all memory in place of everything. What is passed over would have added nothing, so the
result is the union of what the members add on their own.
-/

namespace MemFlow

/-! ## One descriptor -/

namespace Registry

variable {r : Registry} {strict : Bool} {d e : DescId} {target : Descriptor}

theorem WellFormed.closeInto_ok (wf : r.WellFormed) (hd : r.desc? d = some target)
    (strict : Bool) (out : DescSet) :
    ∃ out', r.closeInto strict d out = (out', .ok ()) ∧
      ∀ e, e ∈ out' ↔ e ∈ out ∨ r.InClosure strict d e := by
  refine ⟨out.insertAll (r.overlapping strict target), ?_, ?_⟩
  · rw [closeInto, get_eq_ok.mpr hd]
  · intro e
    rw [DescSet.mem_insertAll, mem_overlapping wf hd]

theorem desc?_eq_none (h : r.isRegistered d = false) : r.desc? d = none := by
  rw [Option.eq_none_iff_forall_ne_some]
  intro desc found
  rw [isRegistered_iff.mpr ⟨desc, found⟩] at h
  cases h

theorem get_of_unregistered (h : r.isRegistered d = false) :
    r.get d = .error (.unregistered d) := by
  rw [get, desc?_eq_none h]

theorem closeInto_unregistered (h : r.isRegistered d = false) (strict : Bool) (out : DescSet) :
    r.closeInto strict d out = (out, .error (.unregistered d)) := by
  rw [closeInto, get_of_unregistered h]

/-- What a closure is to hold, said of all the descriptors of the registry. -/
theorem WellFormed.inClosure_iff (wf : r.WellFormed) (hd : r.desc? d = some target) :
    r.InClosure strict d e ↔
      (∃ m ∈ r.descs, m.overlaps target = true ∧ m.id = e) ∨
        (strict = true ∧ (e = .globalMem ∨ e = .importMem)) := by
  refine or_congr_left ?_
  constructor
  · rintro ⟨target', m, hd', he, overlaps⟩
    obtain rfl : target = target' := Option.some.inj (hd.symm.trans hd')
    rw [Descriptor.overlaps_comm] at overlaps
    exact ⟨m, mem_descs_iff.mpr ⟨e, he⟩, overlaps, wf.id_eq e m he⟩
  · rintro ⟨m, hm, overlaps, rfl⟩
    obtain ⟨e, he⟩ := mem_descs_iff.mp hm
    rw [Descriptor.overlaps_comm] at overlaps
    exact ⟨target, m, hd, (wf.id_eq e m he).symm ▸ he, overlaps⟩

end Registry

/-- **A closure is all that overlaps.** In every registry that requests lead to, appending
the closure of a registered descriptor succeeds. It adds the id of every registered
descriptor that overlaps this one, under the strict reading the global and import sentinels
too, and nothing else. An id that is not registered is refused, and nothing is appended. -/
theorem closure_holds_all_overlaps (edits : List RegistryEdit) (strict : Bool) (d : DescId)
    (out : DescSet) :
    let r := Registry.initial.run edits
    (r.isRegistered d = true → ∃ target out', r.desc? d = some target ∧
      r.closeInto strict d out = (out', .ok ()) ∧
      ∀ e, e ∈ out' ↔ e ∈ out ∨ (∃ m ∈ r.descs, m.overlaps target = true ∧ m.id = e) ∨
        (strict = true ∧ (e = .globalMem ∨ e = .importMem))) ∧
    (r.isRegistered d = false → r.closeInto strict d out = (out, .error (.unregistered d))) := by
  intro r
  have wf : r.WellFormed := Registry.wellFormed_run edits
  constructor
  · intro registered
    obtain ⟨target, hd⟩ := Registry.isRegistered_iff.mp registered
    obtain ⟨out', closed, members⟩ := wf.closeInto_ok hd strict out
    refine ⟨target, out', hd, closed, ?_⟩
    intro e
    rw [members, wf.inClosure_iff hd]
  · intro unregistered
    exact Registry.closeInto_unregistered unregistered strict out

/-- A local variable is described in two parts that touch, by an extent across the border,
and as a whole; an imported one by its first bytes. -/
def quayEdits : List RegistryEdit :=
  [.declare "x" .localVar, .declare "y" .imported,
    .register { base := ⟨3⟩, kind := .exact, size := 4 },
    .register { base := ⟨3⟩, kind := .exact, offset := 4, size := 4 },
    .register { base := ⟨3⟩, kind := .range, offset := 2, size := 4 },
    .register { base := ⟨3⟩, kind := .unbound, flags := { mayOnly := true } },
    .register { base := ⟨4⟩, kind := .exact, size := 2 }]

def quay : Registry := Registry.initial.run quayEdits

/-- The first part overlaps all that is said of its variable but the second part, and no
global. The strict reading adds the sentinels. An id beyond the last is refused. -/
theorem quay_part_closed :
    quay.isRegistered ⟨3⟩ = true ∧ quay.isRegistered ⟨8⟩ = false ∧
    (∃ out', quay.closeInto true ⟨3⟩ (.ofList [⟨9⟩]) = (out', .ok ()) ∧
      ⟨9⟩ ∈ out' ∧ ⟨5⟩ ∈ out' ∧ DescId.importMem ∈ out' ∧ ⟨4⟩ ∉ out') ∧
    quay.closeInto true ⟨8⟩ (.ofList [⟨9⟩]) = (.ofList [⟨9⟩], .error (.unregistered ⟨8⟩)) := by
  have registered : quay.isRegistered ⟨3⟩ = true := by decide
  have unregistered : quay.isRegistered ⟨8⟩ = false := by decide
  obtain ⟨closes, -⟩ := closure_holds_all_overlaps quayEdits true ⟨3⟩ (.ofList [⟨9⟩])
  obtain ⟨-, refuses⟩ := closure_holds_all_overlaps quayEdits true ⟨8⟩ (.ofList [⟨9⟩])
  obtain ⟨target, out', found, closed, members⟩ := closes registered
  obtain rfl : { base := ⟨3⟩, kind := .exact, size := 4, id := ⟨3⟩, storage := .localVar } = target :=
    Option.some.inj found
  refine ⟨registered, unregistered, ⟨out', closed, ?_, ?_, ?_, ?_⟩, refuses unregistered⟩
  · exact (members _).mpr (by decide)
  · exact (members _).mpr (by decide)
  · exact (members _).mpr (by decide)
  · intro added
    exact absurd ((members _).mp added) (by decide)

/-! ## What is passed over -/

theorem Descriptor.sentinel?_of_base {u m : Descriptor} (base : m.base = u.base) :
    m.sentinel? = u.sentinel? := by
  rw [sentinel?, sentinel?, base]

/-- What overlaps a part of a variable overlaps the whole of it. -/
theorem Descriptor.overlaps_of_whole {u m x : Descriptor} (ordinary : u.sentinel? = none)
    (whole : u.kind = .unbound) (base : m.base = u.base) (storage : m.storage = u.storage)
    (h : m.overlaps x = true) : u.overlaps x = true := by
  unfold overlaps at h ⊢
  rw [sentinel?_of_base base, ordinary] at h
  rw [ordinary]
  cases hx : x.sentinel? with
  | some s =>
    rw [hx] at h
    exact storage ▸ h
  | none =>
    simp only [hx, base, whole, decide_true, Bool.true_or, Bool.and_eq_true] at h ⊢
    exact ⟨h.1, trivial⟩

/-- All memory overlaps everything. -/
theorem Descriptor.overlaps_of_allMem {x y : Descriptor} (all : x.sentinel? = some .allMem) :
    x.overlaps y = true := by
  unfold overlaps
  rw [all]
  cases y.sentinel? <;> rfl

namespace Registry

variable {r : Registry} {strict : Bool} {e : DescId}

theorem WellFormed.storage_eq (wf : r.WellFormed) {a b : DescId} {u m : Descriptor}
    (hu : r.desc? a = some u) (hm : r.desc? b = some m) (ordinary : u.sentinel? = none)
    (base : m.base = u.base) : m.storage = u.storage := by
  have ordinary' : m.sentinel? = none := (Descriptor.sentinel?_of_base base).trans ordinary
  obtain ⟨v, hv, storage, -⟩ := (wf.ordinary hu ordinary).declared
  obtain ⟨w, hw, storage', -⟩ := (wf.ordinary hm ordinary').declared
  rw [base, hv] at hw
  cases hw
  rw [← storage, ← storage']

/-- The closure of a whole variable holds that of every descriptor of the variable. -/
theorem WellFormed.inClosure_whole (wf : r.WellFormed) {a b : DescId} {u m : Descriptor}
    (hu : r.desc? a = some u) (hm : r.desc? b = some m) (ordinary : u.sentinel? = none)
    (whole : u.kind = .unbound) (base : m.base = u.base) (h : r.InClosure strict b e) :
    r.InClosure strict a e := by
  rcases h with ⟨m', x, hm', he, overlaps⟩ | sentinel
  · obtain rfl : m = m' := Option.some.inj (hm.symm.trans hm')
    have storage := wf.storage_eq hu hm ordinary base
    exact Or.inl ⟨u, x, hu, he, Descriptor.overlaps_of_whole ordinary whole base storage overlaps⟩
  · exact Or.inr sentinel

theorem WellFormed.desc?_allMem (wf : r.WellFormed) :
    ∃ target, r.desc? .allMem = some target ∧ target.sentinel? = some .allMem := by
  obtain ⟨target, found⟩ := isRegistered_iff.mp (wf.registered_of_sentinel (d := .allMem) rfl)
  refine ⟨target, found, ?_⟩
  rcases wf.form _ target found with ⟨-, s, storage, rfl⟩ | ⟨ordinary, -⟩
  · have id_eq : s.id = .allMem := wf.id_eq _ _ found
    cases s with
    | allMem => rfl
    | globalMem | importMem => cases id_eq
  · cases ordinary

/-- The closure of all memory holds every other closure. -/
theorem WellFormed.inClosure_allMem (wf : r.WellFormed) {d : DescId}
    (h : r.InClosure strict d e) : r.InClosure strict .allMem e := by
  rcases h with ⟨-, x, -, he, -⟩ | sentinel
  · obtain ⟨target, found, all⟩ := wf.desc?_allMem
    exact Or.inl ⟨target, x, found, he, Descriptor.overlaps_of_allMem all⟩
  · exact Or.inr sentinel

/-! ## The members of a set -/

theorem mem_wholeFirst {ms : List Descriptor} {m : Descriptor} : m ∈ wholeFirst ms ↔ m ∈ ms := by
  by_cases whole : m.kind = .unbound <;> simp [wholeFirst, whole]

/-- Each of the variables has been closed as a whole: a descriptor that stands for all of it
is registered, and its closure has been appended. -/
def ClosedWhole (r : Registry) (strict : Bool) (closed : List VarId) (out : DescSet) : Prop :=
  ∀ v ∈ closed, ∃ d u, r.desc? d = some u ∧ u.sentinel? = none ∧ u.kind = .unbound ∧
    u.base = v ∧ ∀ e, r.InClosure strict d e → e ∈ out

/-- Appending the closure of a member keeps this, also if the member closes its variable. -/
theorem ClosedWhole.append {closed : List VarId} {out next : DescSet} {m : Descriptor}
    (whole : r.ClosedWhole strict closed out) (hm : r.desc? m.id = some m)
    (added : ∀ e, e ∈ next ↔ e ∈ out ∨ r.InClosure strict m.id e) :
    r.ClosedWhole strict
      (if m.sentinel?.isNone && m.kind = .unbound then m.base :: closed else closed) next := by
  have before : r.ClosedWhole strict closed next := by
    intro v hv
    obtain ⟨d, u, hu, ordinary, unbound, base, appended⟩ := whole v hv
    exact ⟨d, u, hu, ordinary, unbound, base, fun e he => (added e).mpr (Or.inl (appended e he))⟩
  split
  · rename_i closes
    simp only [Bool.and_eq_true, Option.isNone_iff_eq_none, decide_eq_true_eq] at closes
    intro v hv
    rcases List.mem_cons.mp hv with rfl | hv
    · exact ⟨m.id, m, hm, closes.1, closes.2, rfl, fun e he => (added e).mpr (Or.inr he)⟩
    · exact before v hv
  · exact before

/-- Passing over the members of closed variables loses nothing. -/
theorem WellFormed.closeMembers_ok (wf : r.WellFormed) {ms : List Descriptor}
    (registered : ∀ m ∈ ms, r.desc? m.id = some m) {closed : List VarId} {out : DescSet}
    (whole : r.ClosedWhole strict closed out) :
    ∃ out', r.closeMembers strict closed ms out = (out', .ok ()) ∧
      ∀ e, e ∈ out' ↔ e ∈ out ∨ ∃ m ∈ ms, r.InClosure strict m.id e := by
  induction ms generalizing closed out with
  | nil => exact ⟨out, rfl, by simp⟩
  | cons m ms ih =>
    have hm := registered m List.mem_cons_self
    have rest : ∀ m' ∈ ms, r.desc? m'.id = some m' :=
      fun m' hm' => registered m' (List.mem_cons_of_mem m hm')
    by_cases skip : m.sentinel? = none ∧ m.base ∈ closed
    · obtain ⟨out', closes, members⟩ := ih rest whole
      refine ⟨out', by simpa [closeMembers, skip] using closes, ?_⟩
      intro e
      obtain ⟨d, u, hu, ordinary, unbound, base, appended⟩ := whole m.base skip.2
      have added : r.InClosure strict m.id e → e ∈ out := fun he =>
        appended e (wf.inClosure_whole hu hm ordinary unbound base.symm he)
      rw [members]
      simp only [List.exists_mem_cons_iff]
      tauto
    · obtain ⟨next, closes, added⟩ := wf.closeInto_ok hm strict out
      obtain ⟨out', later, members⟩ := ih rest (whole.append hm added)
      refine ⟨out', by simpa [closeMembers, skip, closes] using later, ?_⟩
      intro e
      rw [members, added]
      simp only [List.exists_mem_cons_iff, or_assoc]

/-! ## Looking the members up -/

theorem mapM_get_ok {ds : List DescId} (h : ∀ d ∈ ds, r.isRegistered d = true) :
    ∃ ms, ds.mapM r.get = .ok ms ∧ ∀ m, m ∈ ms ↔ ∃ d ∈ ds, r.desc? d = some m := by
  induction ds with
  | nil => exact ⟨[], rfl, by simp⟩
  | cons d ds ih =>
    obtain ⟨desc, found⟩ := isRegistered_iff.mp (h d List.mem_cons_self)
    obtain ⟨ms, looked, members⟩ := ih fun d' hd' => h d' (List.mem_cons_of_mem d hd')
    refine ⟨desc :: ms, ?_, ?_⟩
    · rw [List.mapM_cons, get_eq_ok.mpr found, looked]
      rfl
    · intro m
      rw [List.mem_cons, members, List.exists_mem_cons_iff, found, Option.some.injEq, eq_comm]

theorem mapM_get_unregistered {ds : List DescId} {d : DescId}
    (h : ds.find? (!r.isRegistered ·) = some d) :
    ds.mapM r.get = .error (.unregistered d) := by
  induction ds with
  | nil => cases h
  | cons c ds ih =>
    rw [List.mapM_cons]
    by_cases registered : r.isRegistered c = true
    · obtain ⟨desc, found⟩ := isRegistered_iff.mp registered
      rw [List.find?_cons_of_neg (by simpa using registered)] at h
      rw [get_eq_ok.mpr found, ih h]
      rfl
    · rw [List.find?_cons_of_pos (by simpa using registered)] at h
      cases h
      rw [get_of_unregistered (by simpa using registered)]
      rfl

/-! ## Sets -/

variable {s out : DescSet}

theorem closeSetInto_of_allMem (h : .allMem ∈ s) (strict : Bool) (out : DescSet) :
    r.closeSetInto strict s out = r.closeInto strict .allMem out := by
  rw [closeSetInto, if_pos (by simpa [DescSet.hasAllMem] using h)]

theorem WellFormed.closeSetInto_ok (wf : r.WellFormed) (known : r.Knows s) (strict : Bool)
    (out : DescSet) :
    ∃ out', r.closeSetInto strict s out = (out', .ok ()) ∧
      ∀ e, e ∈ out' ↔ e ∈ out ∨ ∃ d ∈ s, r.InClosure strict d e := by
  by_cases all : .allMem ∈ s
  · obtain ⟨target, found, -⟩ := wf.desc?_allMem
    obtain ⟨out', closed, members⟩ := wf.closeInto_ok found strict out
    refine ⟨out', by rw [closeSetInto_of_allMem all, closed], ?_⟩
    intro e
    rw [members]
    refine or_congr_right ⟨fun he => ⟨.allMem, all, he⟩, ?_⟩
    rintro ⟨d, -, he⟩
    exact wf.inClosure_allMem he
  · have listed : ∀ d ∈ s.toList, r.isRegistered d = true :=
      fun d hd => known d (DescSet.mem_toList.mp hd)
    obtain ⟨ms, looked, found⟩ := mapM_get_ok listed
    have registered : ∀ m ∈ wholeFirst ms, r.desc? m.id = some m := by
      intro m hm
      obtain ⟨d, -, hd⟩ := (found m).mp (mem_wholeFirst.mp hm)
      rw [wf.id_eq d m hd, hd]
    have none_closed : r.ClosedWhole strict [] out := by
      intro v hv
      cases hv
    obtain ⟨out', closed, members⟩ := wf.closeMembers_ok registered none_closed
    refine ⟨out', ?_, ?_⟩
    · rw [closeSetInto, if_neg (by simpa [DescSet.hasAllMem] using all), looked]
      exact closed
    · intro e
      rw [members]
      refine or_congr_right ⟨?_, ?_⟩
      · rintro ⟨m, hm, he⟩
        obtain ⟨d, hd, hm⟩ := (found m).mp (mem_wholeFirst.mp hm)
        rw [wf.id_eq d m hm] at he
        exact ⟨d, DescSet.mem_toList.mp hd, he⟩
      · rintro ⟨d, hd, he⟩
        obtain ⟨m, hm⟩ := isRegistered_iff.mp (known d hd)
        refine ⟨m, mem_wholeFirst.mpr ((found m).mpr ⟨d, DescSet.mem_toList.mpr hd, hm⟩), ?_⟩
        rw [wf.id_eq d m hm]
        exact he

theorem WellFormed.closureOfSet_ok (wf : r.WellFormed) (known : r.Knows s) (strict : Bool) :
    ∃ c, r.closureOfSet strict s = .ok c ∧ ∀ e, e ∈ c ↔ ∃ d ∈ s, r.InClosure strict d e := by
  obtain ⟨c, closed, members⟩ := wf.closeSetInto_ok known strict ∅
  refine ⟨c, by rw [closureOfSet, closed, result], ?_⟩
  intro e
  simpa using members e

theorem closeSetInto_unregistered {d : DescId} (all : .allMem ∉ s) (h : r.LeastUnknown s d)
    (strict : Bool) (out : DescSet) :
    r.closeSetInto strict s out = (out, .error (.unregistered d)) := by
  rw [closeSetInto, if_neg (by simpa [DescSet.hasAllMem] using all),
    mapM_get_unregistered (find?_unknown_eq_some.mpr h)]

theorem exists_leastUnknown (h : ¬ r.Knows s) : ∃ d, r.LeastUnknown s d := by
  rw [← find?_unknown_eq_none, ← ne_eq, Option.ne_none_iff_exists'] at h
  obtain ⟨d, found⟩ := h
  exact ⟨d, find?_unknown_eq_some.mp found⟩

end Registry

/-- **The closure of a set is the union of its members' closures.** In every registry that
requests lead to, appending the closure of a set whose members are registered succeeds and
adds what the closures of the members hold, and nothing else; for the empty set this is
nothing under either reading. If some member is not registered, a set that stands for all
memory is answered with the closure of all memory. Any other such set is refused for the
least of these members, and nothing is appended. -/
theorem set_closure_is_union (edits : List RegistryEdit) (strict : Bool) (s out : DescSet) :
    let r := Registry.initial.run edits
    (r.Knows s → ∃ each : DescId → DescSet, (∀ d ∈ s, r.closure strict d = .ok (each d)) ∧
      ∃ out', r.closeSetInto strict s out = (out', .ok ()) ∧
        ∀ e, e ∈ out' ↔ e ∈ out ∨ ∃ d ∈ s, e ∈ each d) ∧
    r.closeSetInto strict ∅ out = (out, .ok ()) ∧
    (¬ r.Knows s →
      (.allMem ∈ s → ∃ full out', r.closure strict .allMem = .ok full ∧
        r.closeSetInto strict s out = (out', .ok ()) ∧ ∀ e, e ∈ out' ↔ e ∈ out ∨ e ∈ full) ∧
      (.allMem ∉ s → ∃ d, r.LeastUnknown s d ∧
        r.closeSetInto strict s out = (out, .error (.unregistered d)))) := by
  intro r
  have wf : r.WellFormed := Registry.wellFormed_run edits
  refine ⟨?_, rfl, ?_⟩
  · intro known
    have closes : ∀ d ∈ s, ∃ c, r.closure strict d = .ok c :=
      fun d hd => Registry.closure_of_registered (known d hd) strict
    choose! each closed using closes
    obtain ⟨out', appended, members⟩ := wf.closeSetInto_ok known strict out
    refine ⟨each, closed, out', appended, ?_⟩
    intro e
    rw [members]
    refine or_congr_right (exists_congr fun d => and_congr_right fun hd => ?_)
    exact (Registry.mem_closure wf (closed d hd) e).symm
  · intro unknown
    constructor
    · intro all
      obtain ⟨target, found, -⟩ := wf.desc?_allMem
      obtain ⟨full, closed⟩ :=
        Registry.closure_of_registered (Registry.isRegistered_iff.mpr ⟨target, found⟩) strict
      obtain ⟨out', appended, members⟩ := wf.closeInto_ok found strict out
      refine ⟨full, out', closed, by rw [Registry.closeSetInto_of_allMem all, appended], ?_⟩
      intro e
      rw [members, Registry.mem_closure wf closed]
    · intro all
      obtain ⟨d, least⟩ := Registry.exists_leastUnknown unknown
      exact ⟨d, least, Registry.closeSetInto_unregistered all least strict out⟩

/-- The whole of a local variable is closed in place of its first part, and the second part
is among what is added. With unknown ids beside it all memory still has its closure, and
without all memory the least of them is reported. -/
theorem quay_set_closed :
    let known : DescSet := .ofList [⟨3⟩, ⟨6⟩]
    let beyond : DescSet := .ofList [⟨9⟩, ⟨3⟩, ⟨8⟩]
    quay.Knows known ∧ ¬ quay.Knows beyond ∧ ¬ quay.Knows (beyond.insert .allMem) ∧
    (∃ out', quay.closeSetInto false known ∅ = (out', .ok ()) ∧ ⟨4⟩ ∈ out' ∧ ⟨7⟩ ∉ out') ∧
    (∃ out', quay.closeSetInto true (beyond.insert .allMem) ∅ = (out', .ok ()) ∧ ⟨7⟩ ∈ out') ∧
    quay.closeSetInto true beyond known = (known, .error (.unregistered ⟨8⟩)) := by
  intro known beyond
  have knows : quay.Knows known := by
    intro d hd
    rw [← DescSet.mem_toList] at hd
    revert d
    decide
  have unknown : ∀ s : DescSet, ⟨8⟩ ∈ s → ¬ quay.Knows s :=
    fun s hs knows => absurd (knows _ hs) (by decide)
  have unknown_beyond := unknown beyond (by decide)
  have unknown_all := unknown (beyond.insert .allMem) (by decide)
  refine ⟨knows, unknown_beyond, unknown_all, ?_, ?_, ?_⟩
  · obtain ⟨each, closed, out', appended, members⟩ :=
      (set_closure_is_union quayEdits false known ∅).1 knows
    have part : quay.closure false ⟨3⟩ = .ok (.ofList [⟨0⟩, ⟨3⟩, ⟨5⟩, ⟨6⟩]) := rfl
    have whole : quay.closure false ⟨6⟩ = .ok (.ofList [⟨0⟩, ⟨3⟩, ⟨4⟩, ⟨5⟩, ⟨6⟩]) := rfl
    have each_part := Except.ok.inj ((closed ⟨3⟩ (by decide)).symm.trans part)
    have each_whole := Except.ok.inj ((closed ⟨6⟩ (by decide)).symm.trans whole)
    refine ⟨out', appended, (members _).mpr (Or.inr ⟨⟨6⟩, by decide, ?_⟩), ?_⟩
    · rw [each_whole]
      decide
    · intro added
      obtain ⟨d, hd, held⟩ := ((members _).mp added).resolve_left (DescSet.not_mem_empty _)
      obtain rfl | rfl : d = ⟨3⟩ ∨ d = ⟨6⟩ := by simpa [known, DescSet.ofList] using hd
      · rw [each_part] at held
        exact absurd held (by decide)
      · rw [each_whole] at held
        exact absurd held (by decide)
  · obtain ⟨full, out', closed, appended, members⟩ :=
      ((set_closure_is_union quayEdits true (beyond.insert .allMem) ∅).2.2 unknown_all).1
        (by decide)
    have all : quay.closure true .allMem =
      .ok (.ofList [⟨0⟩, ⟨1⟩, ⟨2⟩, ⟨3⟩, ⟨4⟩, ⟨5⟩, ⟨6⟩, ⟨7⟩]) := rfl
    obtain rfl := Except.ok.inj (closed.symm.trans all)
    exact ⟨out', appended, (members _).mpr (Or.inr (by decide))⟩
  · obtain ⟨d, least, refused⟩ :=
      ((set_closure_is_union quayEdits true beyond known).2.2 unknown_beyond).2 (by decide)
    obtain rfl : ⟨8⟩ = d := Option.some.inj (Registry.find?_unknown_eq_some.mpr least)
    exact refused

end MemFlow

import Mathlib.Data.Finset.Sort
import MemFlow.IdSet.HandleLemmas
import MemFlow.Proofs.SetOrder

/-!
# Named sets are finite sets

A script of operations on named sets has a reading over finite sets of numbers:
`SetOp.act` says what an operation makes of its target and `SetOp.Answers` what it
may reply. Running the script on a shelf follows that reading step by step. The
shortcuts for handles of one version rest on `Shelf.Coherent`: handles that share
storage hold one set.
-/

namespace MemFlow

/-! ## Scripts over finite sets -/

namespace SetOp

/-- The identifiers an operation is given. -/
def values : SetOp → List Nat
  | .singleton v | .insert v | .erase v | .contains v => [v]
  | .ofList vs | .insertAll vs => vs
  | _ => []

/-- Identifiers have 32 bits. -/
def InRange (op : SetOp) : Prop := ∀ v ∈ op.values, v < 2 ^ 32

instance : DecidablePred InRange := fun op =>
  inferInstanceAs (Decidable (∀ v ∈ op.values, v < 2 ^ 32))

/-- The members of the target after an operation, where it had `s` and the
argument has `t`. -/
def act (op : SetOp) (s t : Finset Nat) : Finset Nat :=
  match op with
  | .new | .clear => ∅
  | .singleton v => {v}
  | .ofList vs => vs.toFinset
  | .copy _ => t
  | .insertAll vs => s ∪ vs.toFinset
  | .insert v => Insert.insert v s
  | .erase v => s.erase v
  | .union _ => s ∪ t
  | .inter _ => s ∩ t
  | .subtract _ => s \ t
  | .contains _ | .meets _ | .isSubset _ | .sameMembers _ | .shares _ => s
  | .size | .isEmpty | .text => s

/-- What an operation may reply. Only the question about storage is left open: it
is not about members, and a yes tells that they are the same. -/
def Answers (op : SetOp) (s t : Finset Nat) (reply : SetReply) : Prop :=
  match op with
  | .new | .singleton _ | .ofList _ | .copy _ | .insertAll _ | .clear => reply = .done
  | .insert _ | .erase _ | .union _ | .inter _ | .subtract _ => reply = .flag (op.act s t ≠ s)
  | .contains v => reply = .flag (v ∈ s)
  | .meets _ => reply = .flag (s ∩ t).Nonempty
  | .isSubset _ => reply = .flag (s ⊆ t)
  | .sameMembers _ => reply = .flag (s = t)
  | .shares _ => ∃ shared : Bool, reply = .flag shared ∧ (shared = true → s = t)
  | .size => reply = .count s.card
  | .isEmpty => reply = .flag (s = ∅)
  | .text => reply = .text ("\x7b" ++ ", ".intercalate (s.sort.map toString) ++ "\x7d")

end SetOp

/-- A finite set for every name. -/
abbrev Contents := String → Finset Nat

namespace Contents

def step (m : Contents) (name : String) (op : SetOp) : Contents :=
  Function.update m name (op.act (m name) (m (op.argument.getD name)))

/-- The sets after a script. -/
def after (m : Contents) (script : List (String × SetOp)) : Contents :=
  script.foldl (fun m line => m.step line.1 line.2) m

/-- The replies are those that each line of a script may give where it stands. -/
inductive Answered : Contents → List (String × SetOp) → List SetReply → Prop
  | nil {m : Contents} : Answered m [] []
  | cons {m : Contents} {name : String} {op : SetOp} {script : List (String × SetOp)}
      {reply : SetReply} {replies : List SetReply}
      (first : op.Answers (m name) (m (op.argument.getD name)) reply)
      (rest : Answered (m.step name op) script replies) :
      Answered m ((name, op) :: script) (reply :: replies)

/-- Every member has 32 bits. -/
def Bounded (m : Contents) : Prop := ∀ name, ∀ v ∈ m name, v < 2 ^ 32

end Contents

/-- Run a script, and collect the replies. -/
def Shelf.run : Shelf → List (String × SetOp) → Shelf × List SetReply
  | s, [] => (s, [])
  | s, (name, op) :: script =>
    let r := s.apply name op
    let rest := r.1.run script
    (rest.1, r.2 :: rest.2)

/-- A set stands for `m` in canonical form. No word is beyond the last that identifiers
of 32 bits need, so each number that a cursor computes has 32 bits as well. A cursor gives the
members, ascending and each once, and then ends. -/
structure IdSet.Represents (s : IdSet) (m : Finset Nat) : Prop where
  ascending : Ascending s.words
  populated : Populated s.words
  index_le : ∀ w ∈ s.words, w.index ≤ (2 ^ 32 - 1) / 64
  no_overflow : ∀ w ∈ s.words, ∀ bit < 64, w.index * 64 + bit < 2 ^ 32
  contains_iff : ∀ v, s.contains v = true ↔ v ∈ m
  yields_toList : s.cursor.Yields s.toList
  toList_ascending : s.toList.Pairwise (· < ·)
  mem_toList_iff : ∀ v, v ∈ s.toList ↔ v ∈ m

/-! ## Members as finite sets -/

namespace IdSet

variable {s t : IdSet}

theorem finset_inj : s.finset = t.finset ↔ s = t := by
  constructor
  · intro h
    apply ext_mem
    intro v
    rw [← mem_finset, h, mem_finset]
  · intro h
    rw [h]

@[simp] theorem finset_empty : (∅ : IdSet).finset = ∅ := rfl

@[simp] theorem finset_singleton (v : Nat) : (singleton v).finset = {v} := by
  ext w
  simp

@[simp] theorem finset_union : (s ∪ t).finset = s.finset ∪ t.finset := by
  ext v
  simp

@[simp] theorem finset_inter : (s ∩ t).finset = s.finset ∩ t.finset := by
  ext v
  simp

@[simp] theorem finset_sdiff : (s \ t).finset = s.finset \ t.finset := by
  ext v
  simp

@[simp] theorem finset_insert (v : Nat) : (s.insert v).finset = Insert.insert v s.finset := by
  ext w
  simp [or_comm]

@[simp] theorem finset_erase (v : Nat) : (s.erase v).finset = s.finset.erase v := by
  ext w
  simp [and_comm]

@[simp] theorem finset_insertAll (vs : List Nat) :
    (s.insertAll vs).finset = s.finset ∪ vs.toFinset := by
  ext v
  simp

theorem isEmpty_iff_finset : s.isEmpty = true ↔ s.finset = ∅ := by
  rw [isEmpty_iff, ← finset_inj, finset_empty]

theorem sort_finset (s : IdSet) : s.finset.sort = s.toList := by
  have nodup : s.toList.Nodup := s.pairwise_toList.imp Nat.ne_of_lt
  rw [finset, List.toFinset_sort _ nodup]
  exact s.pairwise_toList.imp Nat.le_of_lt

theorem exists_mem_of_word {w : Word} (hw : w ∈ s.words) : ∃ v ∈ s, v / 64 = w.index := by
  obtain ⟨k, hk, bit⟩ := exists_bit (s.populated w hw)
  exact ⟨w.index * 64 + k, (mem_place_of_word hw hk).mpr bit, by omega⟩

/-- Members of 32 bits need no word beyond the last that 32 bits address. -/
theorem represents_finset (h : ∀ v ∈ s.finset, v < 2 ^ 32) : s.Represents s.finset := by
  have index_le : ∀ w ∈ s.words, w.index ≤ (2 ^ 32 - 1) / 64 := by
    intro w hw
    obtain ⟨v, hv, index⟩ := exists_mem_of_word hw
    have := h v (mem_finset.mpr hv)
    omega
  refine ⟨s.ascending, s.populated, index_le, ?_, ?_, s.yields_toList, s.pairwise_toList, ?_⟩
  · intro w hw bit hbit
    have := index_le w hw
    omega
  · intro v
    exact mem_finset.symm
  · intro v
    rw [mem_toList, mem_finset]

end IdSet

/-! ## One operation on a handle -/

/-- Sets differ exactly if their members do. -/
theorem Handle.Becomes.finset_changed {h : Handle} {s : IdSet} {r : Handle × Bool}
    (b : h.Becomes s r) : r.2 = decide (s.finset ≠ h.set.finset) := by
  rw [b.changed]
  exact decide_eq_decide.mpr (not_congr IdSet.finset_inj.symm)

namespace Shelf

theorem finset_step {h k : Handle} (shared : h.shares k = true → h.set = k.set) (fresh : Nat)
    (op : SetOp) :
    (step fresh h k op).1.set.finset = op.act h.set.finset k.set.finset := by
  cases op with
  | insert v => simp [step, SetOp.act, (Handle.becomes_insert v).members]
  | erase v => simp [step, SetOp.act, (Handle.becomes_erase v).members]
  | union => simp [step, SetOp.act, (Handle.becomes_union shared).members]
  | inter => simp [step, SetOp.act, (Handle.becomes_inter shared).members]
  | subtract => simp [step, SetOp.act, (Handle.becomes_subtract shared).members]
  | insertAll vs => simp [step, SetOp.act, Handle.set_insertAll]
  | clear => simp [step, SetOp.act]
  | singleton v => exact IdSet.finset_singleton v
  | ofList vs => simp [step, SetOp.act, IdSet.ofList]
  | new | copy | contains | meets | isSubset | sameMembers | shares | size | isEmpty | text => rfl

theorem flag_eq {b : Bool} {p : Prop} [Decidable p] (h : b = true ↔ p) :
    SetReply.flag b = .flag p := by
  rw [Bool.eq_iff_iff.mpr (h.trans decide_eq_true_iff.symm)]

theorem answers_step {h k : Handle} (shared : h.shares k = true → h.set = k.set) (fresh : Nat)
    (op : SetOp) :
    op.Answers h.set.finset k.set.finset (step fresh h k op).2 := by
  cases op with
  | new | singleton | ofList | copy | insertAll | clear => rfl
  | insert v => simp [SetOp.Answers, step, SetOp.act, (Handle.becomes_insert v).finset_changed]
  | erase v => simp [SetOp.Answers, step, SetOp.act, (Handle.becomes_erase v).finset_changed]
  | union => simp [SetOp.Answers, step, SetOp.act, (Handle.becomes_union shared).finset_changed]
  | inter => simp [SetOp.Answers, step, SetOp.act, (Handle.becomes_inter shared).finset_changed]
  | subtract =>
    simp [SetOp.Answers, step, SetOp.act, (Handle.becomes_subtract shared).finset_changed]
  | contains => exact flag_eq IdSet.mem_finset.symm
  | meets =>
    apply flag_eq
    rw [IdSet.meets_iff]
    simp [Finset.Nonempty]
  | isSubset =>
    apply flag_eq
    rw [IdSet.isSubset_iff, Finset.subset_iff]
    simp only [IdSet.mem_finset]
    rfl
  | sameMembers => exact flag_eq (decide_eq_true_iff.trans IdSet.finset_inj.symm)
  | isEmpty => exact flag_eq IdSet.isEmpty_iff_finset
  | shares => exact ⟨_, rfl, fun same => by rw [shared same]⟩
  | size => exact congrArg SetReply.count (IdSet.card_finset _).symm
  | text =>
    refine congrArg SetReply.text ?_
    rw [IdSet.text, IdSet.sort_finset]

/-! ## Versions -/

theorem version_insert (fresh : Nat) (h : Handle) (v : Nat) :
    (h.insert fresh v).1 = h ∨ (h.insert fresh v).1.version = fresh := by
  rw [Handle.insert_eq]
  split
  · exact Or.inl rfl
  · exact Or.inr rfl

theorem version_insertAll (fresh : Nat) (h : Handle) (vs : List Nat) :
    h.insertAll fresh vs = h ∨ (h.insertAll fresh vs).version = fresh := by
  unfold Handle.insertAll
  induction vs generalizing h with
  | nil => exact Or.inl rfl
  | cons v vs ih =>
    rw [List.foldl_cons]
    rcases ih (h.insert fresh v).1 with same | new
    · rw [same]
      exact version_insert fresh h v
    · exact Or.inr new

theorem step_cases (fresh : Nat) (h k : Handle) (op : SetOp) :
    (step fresh h k op).1 = h ∨ (step fresh h k op).1 = k ∨
      (step fresh h k op).1.version = fresh := by
  cases op with
  | insertAll vs =>
    rcases version_insertAll fresh h vs with same | new
    · exact Or.inl same
    · exact Or.inr (Or.inr new)
  | _ =>
    simp only [step, Handle.insert_eq, Handle.erase_eq, Handle.clear, Handle.union, Handle.inter,
      Handle.subtract, Handle.replace]
    grind

/-! ## Shelves -/

variable {s : Shelf} {name other : String}

theorem lookup_filter_ne {α : Type} {entries : List (String × α)} (h : other ≠ name) :
    (entries.filter (·.1 != name)).lookup other = entries.lookup other := by
  induction entries with
  | nil => rfl
  | cons e es ih =>
    by_cases he : e.1 = name
    · rw [List.filter_cons_of_neg (by simp [he]), ih, List.lookup_cons,
        beq_false_of_ne (he ▸ h)]
    · rw [List.filter_cons_of_pos (by simp [he]), List.lookup_cons, List.lookup_cons, ih]

theorem find?_put (h : Handle) :
    (s.put name h).find? other = if other = name then some h else s.find? other := by
  unfold put find?
  split
  · rename_i same
    rw [same, List.lookup_cons_self]
  · rename_i differs
    rw [List.lookup_cons, beq_false_of_ne differs]
    exact lookup_filter_ne differs

theorem get_of_find? {h : Handle} (found : s.find? name = some h) : s.get name = h := by
  rw [get, found, Option.getD_some]

/-- The members that the names of a shelf hold. -/
def contents (s : Shelf) : Contents := fun name => (s.get name).set.finset

theorem contents_eq (s : Shelf) (name : String) :
    s.contents name = (s.find? name).elim ∅ (·.set.finset) := by
  unfold contents get
  cases s.find? name <;> rfl

theorem contents_of_find? {h : Handle} (found : s.find? name = some h) :
    s.contents name = h.set.finset := by
  rw [contents, get_of_find? found]

theorem contents_put (h : Handle) (next : Nat) :
    contents { s.put name h with next := next } =
      Function.update s.contents name h.set.finset := by
  funext other
  rw [contents_eq, show find? { s.put name h with next := next } other =
    (s.put name h).find? other from rfl, find?_put]
  by_cases same : other = name
  · rw [if_pos same, same, Function.update_self, Option.elim_some]
  · rw [if_neg same, Function.update_of_ne same, contents_eq]

/-- Versions in use are below the next one, and handles of one version hold one set. -/
structure Coherent (s : Shelf) : Prop where
  below : ∀ name h, s.find? name = some h → h.version < s.next
  shared : ∀ name other h k, s.find? name = some h → s.find? other = some k →
    h.version = k.version → h.set = k.set

theorem coherent_empty : Coherent {} := by
  constructor
  · intro name h found
    cases found
  · intro name other h k found
    cases found

theorem Coherent.put (co : s.Coherent) {h : Handle} {next : Nat} (le : s.next ≤ next)
    (lt : h.version < next)
    (agrees : ∀ other k, s.find? other = some k → h.version = k.version → h.set = k.set) :
    Coherent { s.put name h with next := next } := by
  have found : ∀ other k, (s.put name h).find? other = some k →
      k = h ∨ s.find? other = some k := by
    intro other k hk
    rw [find?_put] at hk
    split at hk
    · exact Or.inl (Option.some.inj hk).symm
    · exact Or.inr hk
  constructor
  · intro other k hk
    rcases found other k hk with rfl | old
    · exact lt
    · exact Nat.lt_of_lt_of_le (co.below other k old) le
  · intro a b x y hx hy same
    rcases found a x hx with rfl | oldx <;> rcases found b y hy with rfl | oldy
    · rfl
    · exact agrees b y oldy same
    · exact (agrees a x oldx same.symm).symm
    · exact co.shared a b x y oldx oldy same

/-- Storage of the next version is nobody else's. -/
theorem Coherent.put_next (co : s.Coherent) {h : Handle} (fresh : h.version = s.next) :
    Coherent { s.put name h with next := s.next + 1 } := by
  apply co.put (Nat.le_succ _) (by omega)
  intro other k found same
  have := co.below other k found
  omega

theorem Coherent.put_found (co : s.Coherent) {h : Handle} (found : s.find? other = some h) :
    Coherent { s.put name h with next := s.next + 1 } := by
  apply co.put (Nat.le_succ _) (Nat.lt_succ_of_lt (co.below other h found))
  intro another k
  exact co.shared other another h k found

theorem Coherent.mention (co : s.Coherent) (name : String) : (s.mention name).Coherent := by
  unfold Shelf.mention
  split
  · exact co
  · exact co.put_next rfl

theorem contents_mention (s : Shelf) (name : String) :
    (s.mention name).contents = s.contents := by
  unfold mention
  split
  · rfl
  · rename_i missing
    rw [contents_put, Function.update_eq_self_iff, contents_eq, missing]
    rfl

theorem find?_mention_self (s : Shelf) (name : String) :
    ∃ h, (s.mention name).find? name = some h := by
  unfold mention
  split
  · rename_i h found
    exact ⟨h, found⟩
  · refine ⟨⟨s.next, ∅⟩, ?_⟩
    exact (find?_put _).trans (if_pos rfl)

theorem find?_mention {h : Handle} (found : s.find? other = some h) (name : String) :
    (s.mention name).find? other = some h := by
  unfold mention
  split
  · exact found
  · rename_i missing
    have differs : other ≠ name := by
      rintro rfl
      rw [found] at missing
      cases missing
    exact (find?_put _).trans ((if_neg differs).trans found)

/-! ## One operation on a shelf -/

/-- The shelf once the names of an operation have handles. -/
def ready (s : Shelf) (name : String) (op : SetOp) : Shelf :=
  match op.argument with
  | some t => (s.mention name).mention t
  | none => s.mention name

theorem apply_eq (s : Shelf) (name : String) (op : SetOp) :
    s.apply name op =
      let r := step (s.ready name op).next ((s.ready name op).get name)
        ((s.ready name op).get (op.argument.getD name)) op
      ({ (s.ready name op).put name r.1 with next := (s.ready name op).next + 1 }, r.2) := rfl

theorem Coherent.ready (co : s.Coherent) (name : String) (op : SetOp) :
    (s.ready name op).Coherent := by
  unfold Shelf.ready
  split
  · exact (co.mention name).mention _
  · exact co.mention name

theorem contents_ready (s : Shelf) (name : String) (op : SetOp) :
    (s.ready name op).contents = s.contents := by
  unfold ready
  split
  · rw [contents_mention, contents_mention]
  · rw [contents_mention]

theorem find?_ready (s : Shelf) (name : String) (op : SetOp) :
    ∃ h k, (s.ready name op).find? name = some h ∧
      (s.ready name op).find? (op.argument.getD name) = some k := by
  obtain ⟨h, found⟩ := find?_mention_self s name
  unfold ready
  cases op.argument with
  | none => exact ⟨h, h, found, found⟩
  | some t =>
    obtain ⟨k, foundArg⟩ := find?_mention_self (s.mention name) t
    exact ⟨h, k, find?_mention found t, foundArg⟩

/-- One operation follows the finite sets and keeps shared storage coherent. -/
theorem apply_follows (co : s.Coherent) (name : String) (op : SetOp) :
    (s.apply name op).1.Coherent ∧
    (s.apply name op).1.contents = s.contents.step name op ∧
    op.Answers (s.contents name) (s.contents (op.argument.getD name)) (s.apply name op).2 := by
  have co' := co.ready name op
  obtain ⟨h, k, target, argument⟩ := find?_ready s name op
  have shared : h.shares k = true → h.set = k.set := by
    intro same
    exact co'.shared _ _ h k target argument (beq_iff_eq.mp same)
  have before : s.contents name = h.set.finset := by
    rw [← contents_ready s name op, contents_of_find? target]
  have given : s.contents (op.argument.getD name) = k.set.finset := by
    rw [← contents_ready s name op, contents_of_find? argument]
  rw [apply_eq, get_of_find? target, get_of_find? argument, before, given]
  refine ⟨?_, ?_, answers_step shared _ op⟩
  · dsimp only
    rcases step_cases (s.ready name op).next h k op with same | same | new
    · rw [same]
      exact co'.put_found target
    · -- Only a copy, and a union into an empty set, take over the argument's storage.
      rw [same]
      exact co'.put_found argument
    · exact co'.put_next new
  · rw [contents_put, contents_ready, finset_step shared, Contents.step, before, given]

/-! ## Whole scripts -/

theorem run_follows (co : s.Coherent) (script : List (String × SetOp)) :
    (s.run script).1.contents = s.contents.after script ∧
    s.contents.Answered script (s.run script).2 := by
  induction script generalizing s with
  | nil => exact ⟨rfl, .nil⟩
  | cons line script ih =>
    obtain ⟨name, op⟩ := line
    obtain ⟨co', members, reply⟩ := apply_follows co name op
    obtain ⟨final, replies⟩ := ih co'
    rw [members] at final replies
    exact ⟨final, .cons reply replies⟩

theorem contents_empty : contents {} = fun _ => ∅ := rfl

end Shelf

theorem SetOp.mem_act {op : SetOp} {s t : Finset Nat} {v : Nat} (h : v ∈ op.act s t) :
    v ∈ s ∨ v ∈ t ∨ v ∈ op.values := by
  cases op with
  | new | clear => cases h
  | singleton w => exact Or.inr (Or.inr (List.mem_singleton.mpr (Finset.mem_singleton.mp h)))
  | ofList vs => exact Or.inr (Or.inr (List.mem_toFinset.mp h))
  | copy => exact Or.inr (Or.inl h)
  | insert w =>
    rcases Finset.mem_insert.mp h with new | old
    · exact Or.inr (Or.inr (List.mem_singleton.mpr new))
    · exact Or.inl old
  | insertAll vs =>
    rcases Finset.mem_union.mp h with old | new
    · exact Or.inl old
    · exact Or.inr (Or.inr (List.mem_toFinset.mp new))
  | union =>
    rcases Finset.mem_union.mp h with old | given
    · exact Or.inl old
    · exact Or.inr (Or.inl given)
  | erase => exact Or.inl (Finset.mem_of_mem_erase h)
  | inter => exact Or.inl (Finset.mem_of_mem_inter_left h)
  | subtract => exact Or.inl (Finset.mem_sdiff.mp h).1
  | contains | meets | isSubset | sameMembers | shares | size | isEmpty | text => exact Or.inl h

namespace Contents

theorem Bounded.step {m : Contents} (bounded : m.Bounded) {op : SetOp} (inRange : op.InRange)
    (name : String) : (m.step name op).Bounded := by
  intro other v hv
  unfold Contents.step at hv
  by_cases same : other = name
  · rw [same, Function.update_self] at hv
    rcases SetOp.mem_act hv with old | old | new
    · exact bounded _ v old
    · exact bounded _ v old
    · exact inRange v new
  · rw [Function.update_of_ne same] at hv
    exact bounded other v hv

theorem Bounded.after {m : Contents} (bounded : m.Bounded) {script : List (String × SetOp)}
    (inRange : ∀ line ∈ script, line.2.InRange) : (m.after script).Bounded := by
  induction script generalizing m with
  | nil => exact bounded
  | cons line script ih =>
    obtain ⟨first, rest⟩ := List.forall_mem_cons.mp inRange
    exact ih (bounded.step first line.1) rest

end Contents

/-- **Named sets are finite sets.** After every script over identifiers of 32 bits, each
name holds in canonical form the finite set that the script gives it, two names hold
equal values exactly if their members are equal, and every reply on the way is the one
that the members of target and argument call for. -/
theorem shelves_refine_finite_sets (script : List (String × SetOp))
    (inRange : ∀ line ∈ script, line.2.InRange) :
    (∀ name, ((Shelf.run {} script).1.get name).set.Represents
      (Contents.after (fun _ => ∅) script name)) ∧
    (∀ name other, ((Shelf.run {} script).1.get name).set =
        ((Shelf.run {} script).1.get other).set ↔
      Contents.after (fun _ => ∅) script name = Contents.after (fun _ => ∅) script other) ∧
    Contents.Answered (fun _ => ∅) script (Shelf.run {} script).2 := by
  obtain ⟨members, replies⟩ := Shelf.run_follows Shelf.coherent_empty script
  rw [Shelf.contents_empty] at members replies
  have bounded : (Contents.after (fun _ => ∅) script).Bounded :=
    Contents.Bounded.after (fun _ v hv => by simp at hv) inRange
  rw [← members] at bounded ⊢
  refine ⟨?_, ?_, replies⟩
  · intro name
    exact IdSet.represents_finset (bounded name)
  · intro name other
    exact IdSet.finset_inj.symm

/-- Members at the ends of words and of the range, handles that share storage, and sets given to
themselves. -/
def corners : List (String × SetOp) :=
  [("a", .ofList [2 ^ 32 - 1, 64, 0, 63, 64]), ("b", .copy "a"), ("b", .insert (2 ^ 32 - 1)),
    ("b", .erase 64), ("b", .isSubset "a"), ("a", .subtract "b"), ("a", .text),
    ("c", .union "a"), ("c", .union "c"), ("c", .inter "a"), ("c", .subtract "c"),
    ("c", .sameMembers "a"), ("c", .isEmpty), ("b", .size)]

/-- Only what adds or takes a member out reports a change, and the last identifier is
kept in the last word. -/
theorem corners_refined :
    (∀ line ∈ corners, line.2.InRange) ∧
    Contents.Answered (fun _ => ∅) corners
      [.done, .done, .flag false, .flag true, .flag true, .flag true, .text "\x7b64\x7d",
        .flag true, .flag false, .flag false, .flag true, .flag false, .flag true, .count 3] ∧
    ((Shelf.run {} corners).1.get "b").set.Represents {0, 63, 2 ^ 32 - 1} ∧
    ((Shelf.run {} corners).1.get "a").set ≠ ((Shelf.run {} corners).1.get "c").set := by
  have inRange : ∀ line ∈ corners, line.2.InRange := by decide
  obtain ⟨represents, equal_iff, answered⟩ := shelves_refine_finite_sets corners inRange
  refine ⟨inRange, ?_, ?_, ?_⟩
  · have replies : (Shelf.run {} corners).2 =
        [.done, .done, .flag false, .flag true, .flag true, .flag true, .text "\x7b64\x7d",
          .flag true, .flag false, .flag false, .flag true, .flag false, .flag true, .count 3] := by
      decide +kernel
    rwa [replies] at answered
  · have members : Contents.after (fun _ => ∅) corners "b" = {0, 63, 2 ^ 32 - 1} := by
      decide +kernel
    rw [← members]
    exact represents "b"
  · rw [Ne, equal_iff]
    decide +kernel

end MemFlow

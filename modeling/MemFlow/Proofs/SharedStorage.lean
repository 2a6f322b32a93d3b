import MemFlow.Proofs.FiniteSets

/-!
# Who shares storage

Handles on one storage hold one set, and yet changing one of them never shows through
another: whoever changes members moves to storage that nobody else has. An operation that
leaves the members as they were leaves the storage too, and a union into an empty set takes
over that of its argument. What an operation makes of members, and what it replies, can be
told from the members alone.
-/

namespace MemFlow

namespace SetOp

/-- The operation makes a set with storage of its own. -/
def isMaker : SetOp → Bool
  | .new | .singleton _ | .ofList _ => true
  | _ => false

/-- The operation may change the members of the set it is applied to. -/
def isMutator : SetOp → Bool
  | .insertAll _ | .insert _ | .erase _ | .clear | .union _ | .inter _ | .subtract _ => true
  | _ => false

/-- The same operation with another argument. -/
def onto (t : String) : SetOp → SetOp
  | .copy _ => .copy t
  | .union _ => .union t
  | .inter _ => .inter t
  | .subtract _ => .subtract t
  | .meets _ => .meets t
  | .isSubset _ => .isSubset t
  | .sameMembers _ => .sameMembers t
  | .shares _ => .shares t
  | op => op

end SetOp

namespace Shelf

/-- Both names have handles, and these are on one storage. -/
def Share (s : Shelf) (a b : String) : Prop :=
  ∃ h k, s.find? a = some h ∧ s.find? b = some k ∧ h.shares k = true

/-- No other name has a handle on the storage that the name's is on. -/
def Alone (s : Shelf) (name : String) : Prop := ∀ other, other ≠ name → ¬ s.Share name other

/-- Every handle stays, and what is added are empty sets with storage of their own. -/
structure Readies (s s' : Shelf) : Prop where
  keeps : ∀ name h, s.find? name = some h → s'.find? name = some h
  adds : ∀ name h, s.find? name = none → s'.find? name = some h → h.set = ∅ ∧ s'.Alone name

/-- The operation is a union into an empty set, and its argument has members. -/
def Adopts (s : Shelf) (name : String) (op : SetOp) (t : String) : Prop :=
  op = .union t ∧ s.contents name = ∅ ∧ s.contents t ≠ ∅

/-- What an operation does to handles. -/
structure Isolates (before after : Shelf) (name : String) (op : SetOp) : Prop where
  others : ∀ other, other ≠ name → after.find? other = before.find? other
  made : op.isMaker = true → after.Alone name
  copied : ∀ t, op = .copy t → after.find? name = before.find? t
  kept : op.isMutator = true → after.contents name = before.contents name →
    after.find? name = before.find? name
  moved : op.isMutator = true → after.contents name ≠ before.contents name →
    (∀ t, ¬ before.Adopts name op t) → after.Alone name
  adopted : ∀ t, before.Adopts name op t →
    after.find? name = before.find? t ∧ after.Share name t

end Shelf

/-! ## Where an operation leaves a handle -/

theorem IdSet.finset_eq_empty {s : IdSet} : s.finset = ∅ ↔ s = ∅ := by
  rw [← finset_empty, finset_inj]

namespace Handle

variable {fresh : Nat} {h k : Handle}

theorem shares_iff : h.shares k = true ↔ h.version = k.version := beq_iff_eq

/-- The handle stays as it is, or its members change and it moves to fresh storage. -/
def Moves (fresh : Nat) (h r : Handle) : Prop := r = h ∨ (r.version = fresh ∧ r.set ≠ h.set)

theorem moves_replace (s : IdSet) : Moves fresh h (h.replace fresh s).1 := by
  unfold replace
  split
  · exact Or.inl rfl
  · rename_i differs
    exact Or.inr ⟨rfl, differs⟩

theorem moves_insert (v : Nat) : Moves fresh h (h.insert fresh v).1 := by
  rw [insert_eq]
  split
  · exact Or.inl rfl
  · rename_i new
    have differs : h.set.insert v ≠ h.set := by
      intro same
      have mem : v ∈ h.set.insert v := IdSet.mem_insert.mpr (Or.inr rfl)
      rw [same] at mem
      exact new mem
    exact Or.inr ⟨rfl, differs⟩

theorem moves_erase (v : Nat) : Moves fresh h (h.erase fresh v).1 := by
  rw [erase_eq]
  split
  · rename_i old
    have differs : h.set.erase v ≠ h.set := by
      intro same
      have mem : v ∈ h.set.erase v := by rwa [same]
      exact (IdSet.mem_erase.mp mem).2 rfl
    exact Or.inr ⟨rfl, differs⟩
  · exact Or.inl rfl

theorem moves_clear : Moves fresh h (h.clear fresh) := by
  unfold clear
  split
  · exact Or.inl rfl
  · rename_i some
    refine Or.inr ⟨rfl, ?_⟩
    intro same
    exact some (IdSet.isEmpty_iff.mpr same.symm)

theorem moves_inter : Moves fresh h (h.inter fresh k).1 := by
  unfold inter
  split
  · exact Or.inl rfl
  · split
    · exact moves_clear
    · exact moves_replace _

theorem moves_subtract : Moves fresh h (h.subtract fresh k).1 := by
  unfold subtract
  split
  · exact Or.inl rfl
  · split
    · exact moves_clear
    · exact moves_replace _

theorem moves_insertAll (vs : List Nat) : Moves fresh h (h.insertAll fresh vs) := by
  induction vs generalizing h with
  | nil => exact Or.inl rfl
  | cons v vs ih =>
    have rest : h.insertAll fresh (v :: vs) = (h.insert fresh v).1.insertAll fresh vs := rfl
    by_cases old : v ∈ h.set
    · have same : (h.insert fresh v).1 = h := by simp [insert_eq, old]
      rw [rest, same]
      exact ih
    · have new : (h.insert fresh v).1 = ⟨fresh, h.set.insert v⟩ := by simp [insert_eq, old]
      -- What comes after writes the storage that this element moved to.
      have version : (h.insertAll fresh (v :: vs)).version = fresh := by
        rw [rest, new]
        obtain same | moved := Shelf.version_insertAll fresh ⟨fresh, h.set.insert v⟩ vs
        · rw [same]
        · exact moved
      refine Or.inr ⟨version, ?_⟩
      intro same
      rw [set_insertAll] at same
      apply old
      rw [← same]
      exact IdSet.mem_insertAll.mpr (Or.inr List.mem_cons_self)

/-- A union moves the handle like any other operation, or it takes over the argument. -/
theorem moves_union : Moves fresh h (h.union fresh k).1 ∨
    (h.set = ∅ ∧ k.set ≠ ∅ ∧ (h.union fresh k).1 = k) := by
  unfold union
  split
  · exact Or.inl (Or.inl rfl)
  · rename_i something
    simp only [Bool.or_eq_true, not_or, IdSet.isEmpty_iff] at something
    split
    · rename_i empty
      exact Or.inr ⟨IdSet.isEmpty_iff.mp empty, something.1, rfl⟩
    · exact Or.inl (moves_replace _)

theorem union_of_empty (shared : h.shares k = true → h.set = k.set) (empty : h.set = ∅)
    (given : k.set ≠ ∅) : (h.union fresh k).1 = k := by
  have apart : ¬ h.shares k = true := by
    intro same
    rw [← shared same] at given
    exact given empty
  have some : ¬ k.set.isEmpty = true := fun none => given (IdSet.isEmpty_iff.mp none)
  simp [union, apart, some, IdSet.isEmpty_iff.mpr empty]

end Handle

namespace Shelf

variable {op : SetOp} {fresh : Nat} {h k : Handle}

/-- Every mutator but a union into an empty set keeps the handle or moves it. -/
theorem moves_of_isMutator (mutator : op.isMutator = true) :
    Handle.Moves fresh h (step fresh h k op).1 ∨
      ((∃ t, op = .union t) ∧ h.set = ∅ ∧ k.set ≠ ∅ ∧ (step fresh h k op).1 = k) := by
  cases op with
  | insertAll vs => exact Or.inl (Handle.moves_insertAll vs)
  | insert v => exact Or.inl (Handle.moves_insert v)
  | erase v => exact Or.inl (Handle.moves_erase v)
  | clear => exact Or.inl Handle.moves_clear
  | inter t => exact Or.inl Handle.moves_inter
  | subtract t => exact Or.inl Handle.moves_subtract
  | union t =>
    have union : Handle.Moves fresh h (h.union fresh k).1 ∨ _ := Handle.moves_union
    obtain moves | adopts := union
    · exact Or.inl moves
    · exact Or.inr ⟨⟨t, rfl⟩, adopts⟩
  | _ => cases mutator

theorem step_kept (mutator : op.isMutator = true) (same : (step fresh h k op).1.set = h.set) :
    (step fresh h k op).1 = h := by
  obtain (unchanged | ⟨-, differs⟩) | ⟨-, empty, given, adopted⟩ := moves_of_isMutator mutator
  · exact unchanged
  · exact absurd same differs
  · rw [adopted, empty] at same
    exact absurd same given

theorem step_moved (mutator : op.isMutator = true)
    (differs : (step fresh h k op).1.set ≠ h.set) :
    (step fresh h k op).1.version = fresh ∨
      ((∃ t, op = .union t) ∧ h.set = ∅ ∧ k.set ≠ ∅) := by
  obtain (unchanged | ⟨version, -⟩) | ⟨union, empty, given, -⟩ := moves_of_isMutator mutator
  · exact absurd (congrArg Handle.set unchanged) differs
  · exact Or.inl version
  · exact Or.inr ⟨union, empty, given⟩

theorem version_of_isMaker (maker : op.isMaker = true) : (step fresh h k op).1.version = fresh := by
  cases op with
  | new | singleton | ofList => rfl
  | _ => cases maker

end Shelf

namespace Shelf

variable {s : Shelf} {name : String} {op : SetOp}

/-! ## Names that get handles -/

theorem Coherent.alone_put (co : s.Coherent) {r : Handle} (fresh : r.version = s.next)
    (next : Nat) : Alone { s.put name r with next := next } name := by
  rintro other differs ⟨h, k, hn, ho, same⟩
  have found : (s.put name r).find? name = some h := hn
  have found' : (s.put name r).find? other = some k := ho
  rw [find?_put, if_pos rfl] at found
  rw [find?_put, if_neg differs] at found'
  cases found
  have below := co.below other k found'
  have versions := Handle.shares_iff.mp same
  omega

theorem Share.symm {a b : String} (h : s.Share a b) : s.Share b a := by
  obtain ⟨x, y, hx, hy, same⟩ := h
  exact ⟨y, x, hy, hx, Handle.shares_iff.mpr (Handle.shares_iff.mp same).symm⟩

theorem Readies.trans {s' s'' : Shelf} (first : s.Readies s') (second : s'.Readies s'') :
    s.Readies s'' := by
  constructor
  · intro name h found
    exact second.keeps name h (first.keeps name h found)
  · intro name h missing found
    cases between : s'.find? name with
    | none => exact second.adds name h between found
    | some h' =>
      have same := second.keeps name h' between
      rw [found] at same
      cases same
      obtain ⟨empty, alone⟩ := first.adds name h missing between
      refine ⟨empty, ?_⟩
      -- It shares with nobody so far, and what the second step adds shares with nobody either.
      rintro other differs ⟨x, y, hx, hy, shares⟩
      rw [found] at hx
      cases hx
      cases earlier : s'.find? other with
      | none =>
        obtain ⟨-, alone'⟩ := second.adds other y earlier hy
        exact alone' name differs.symm (Share.symm ⟨h, y, found, hy, shares⟩)
      | some y' =>
        have same := second.keeps other y' earlier
        rw [hy] at same
        cases same
        exact alone other differs ⟨h, y, between, earlier, shares⟩

theorem Coherent.readies_mention (co : s.Coherent) (name : String) :
    s.Readies (s.mention name) := by
  constructor
  · intro other h found
    exact find?_mention found name
  · intro other h missing found
    unfold Shelf.mention at found ⊢
    split at found
    · rw [missing] at found
      cases found
    · have added : (s.put name ⟨s.next, ∅⟩).find? other = some h := found
      rw [find?_put] at added
      split at added
      · rename_i same
        cases added
        rw [same]
        exact ⟨rfl, co.alone_put rfl (s.next + 1)⟩
      · rw [missing] at added
        cases added

theorem Coherent.readies (co : s.Coherent) (name : String) (op : SetOp) :
    s.Readies (s.ready name op) := by
  unfold Shelf.ready
  split
  · exact (co.readies_mention name).trans ((co.mention name).readies_mention _)
  · exact co.readies_mention name

/-! ## One operation -/

theorem adopts_iff {t : String} {h k : Handle} (target : s.find? name = some h)
    (argument : s.find? t = some k) :
    s.Adopts name (.union t) t ↔ h.set = ∅ ∧ k.set ≠ ∅ := by
  rw [Adopts, contents_of_find? target, contents_of_find? argument, Ne, IdSet.finset_eq_empty,
    IdSet.finset_eq_empty]
  exact and_iff_right rfl

theorem Coherent.isolates_put (co : s.Coherent) {h k : Handle} (target : s.find? name = some h)
    (argument : s.find? (op.argument.getD name) = some k) :
    s.Isolates { s.put name (step s.next h k op).1 with next := s.next + 1 } name op := by
  generalize stepped : (step s.next h k op).1 = r
  have here : find? { s.put name r with next := s.next + 1 } name = some r :=
    (find?_put r).trans (if_pos rfl)
  have others : ∀ other, other ≠ name →
      find? { s.put name r with next := s.next + 1 } other = s.find? other :=
    fun other differs => (find?_put r).trans (if_neg differs)
  have same_iff : contents { s.put name r with next := s.next + 1 } name = s.contents name ↔
      r.set = h.set := by
    rw [contents_of_find? here, contents_of_find? target, IdSet.finset_inj]
  constructor
  case others => exact others
  case made =>
    intro maker
    apply co.alone_put
    rw [← stepped]
    exact version_of_isMaker maker
  case copied =>
    rintro t rfl
    have taken : k = r := stepped
    rw [here, ← taken]
    exact argument.symm
  case kept =>
    intro mutator same
    rw [same_iff, ← stepped] at same
    rw [here, target, ← stepped, step_kept mutator same]
  case moved =>
    intro mutator differs other
    rw [Ne, same_iff, ← stepped] at differs
    obtain fresh | ⟨⟨t, rfl⟩, adopts⟩ := step_moved mutator differs
    · rw [stepped] at fresh
      exact co.alone_put fresh _
    · exact absurd ((adopts_iff target argument).mpr adopts) (other t)
  case adopted =>
    rintro t ⟨rfl, empty, given⟩
    have found : s.find? t = some k := argument
    -- The two have different members, so the argument is not the target.
    have elsewhere : t ≠ name := by
      rintro rfl
      exact given empty
    obtain ⟨empty', given'⟩ := (adopts_iff target found).mp ⟨rfl, empty, given⟩
    have shared : h.shares k = true → h.set = k.set :=
      fun same => co.shared name t h k target found (Handle.shares_iff.mp same)
    have taken : r = k := stepped.symm.trans (Handle.union_of_empty shared empty' given')
    rw [taken] at here others ⊢
    exact ⟨here.trans found.symm,
      ⟨k, k, here, (others t elsewhere).trans found, Handle.shares_iff.mpr rfl⟩⟩

theorem Coherent.isolates (co : s.Coherent) (name : String) (op : SetOp) :
    (s.ready name op).Isolates (s.apply name op).1 name op := by
  obtain ⟨h, k, target, argument⟩ := find?_ready s name op
  have put := (co.ready name op).isolates_put target argument
  rw [apply_eq, get_of_find? target, get_of_find? argument]
  exact put

/-! ## Runs -/

theorem Coherent.run (co : s.Coherent) (script : List (String × SetOp)) :
    (s.run script).1.Coherent := by
  induction script generalizing s with
  | nil => exact co
  | cons line script ih =>
    obtain ⟨name, op⟩ := line
    exact ih (apply_follows co name op).1

theorem Coherent.contents_of_share (co : s.Coherent) {a b : String} (h : s.Share a b) :
    s.contents a = s.contents b := by
  obtain ⟨x, y, hx, hy, same⟩ := h
  have sets := co.shared a b x y hx hy (Handle.shares_iff.mp same)
  rw [contents_of_find? hx, contents_of_find? hy, sets]

end Shelf

namespace SetOp

theorem act_onto (op : SetOp) (t : String) (a b : Finset Nat) :
    (op.onto t).act a b = op.act a b := by
  cases op <;> rfl

theorem Answers.unique {op : SetOp} (mutator : op.isMutator = true) {t : String}
    {a b : Finset Nat} {reply reply' : SetReply} (h : op.Answers a b reply)
    (h' : (op.onto t).Answers a b reply') : reply = reply' := by
  cases op with
  | insertAll | insert | erase | clear | union | inter | subtract => exact h.trans h'.symm
  | _ => cases mutator

end SetOp

/-- A mutator makes the same of the same members, and replies the same. -/
theorem Shelf.apply_alike {s s' : Shelf} (co : s.Coherent) (co' : s'.Coherent) {op : SetOp}
    (mutator : op.isMutator = true) {name name' t : String}
    (target : s.contents name = s'.contents name')
    (argument : s.contents (op.argument.getD name) =
      s'.contents ((op.onto t).argument.getD name')) :
    (s.apply name op).1.contents name = (s'.apply name' (op.onto t)).1.contents name' ∧
    (s.apply name op).2 = (s'.apply name' (op.onto t)).2 := by
  obtain ⟨-, members, reply⟩ := apply_follows co name op
  obtain ⟨-, members', reply'⟩ := apply_follows co' name' (op.onto t)
  constructor
  · rw [members, members', Contents.step, Contents.step, Function.update_self,
      Function.update_self, SetOp.act_onto, target, argument]
  · rw [target, argument] at reply
    exact reply.unique mutator reply'

/-- **Shared storage never shows.** After every script, handles on one storage hold the same
members. Whatever operation comes next, names that it mentions for the first time get empty
sets with storage of their own, and no handle but the target's changes. What is made has
storage of its own, and a copy is on its source's. A mutator that leaves the members as they
were leaves the handle too. One that changes them is alone on its storage afterwards, except
that a union into an empty set takes over that of its argument. After any other script, if
target and argument have the same members there, then a mutator leaves the same members and
replies the same. -/
theorem shared_storage_never_shows (script : List (String × SetOp)) :
    let s := (Shelf.run {} script).1
    (∀ a b, s.Share a b → s.contents a = s.contents b) ∧
    ∀ name op,
      s.Readies (s.ready name op) ∧
      (s.ready name op).Isolates (s.apply name op).1 name op ∧
      ∀ script' name' t,
        let s' := (Shelf.run {} script').1
        op.isMutator = true → s.contents name = s'.contents name' →
        s.contents (op.argument.getD name) = s'.contents ((op.onto t).argument.getD name') →
        (s.apply name op).1.contents name = (s'.apply name' (op.onto t)).1.contents name' ∧
        (s.apply name op).2 = (s'.apply name' (op.onto t)).2 := by
  intro s
  have co : s.Coherent := Shelf.coherent_empty.run script
  refine ⟨fun a b => co.contents_of_share, ?_⟩
  intro name op
  refine ⟨co.readies name op, co.isolates name op, ?_⟩
  intro script' name' t s' mutator target argument
  have co' : s'.Coherent := Shelf.coherent_empty.run script'
  exact Shelf.apply_alike co co' mutator target argument

/-- Two handles on one storage, and an empty set. -/
def trio : List (String × SetOp) :=
  [("a", .ofList [1, 70]), ("b", .copy "a"), ("c", .new)]

/-- The same members without anything shared. -/
def apart : List (String × SetOp) :=
  [("x", .singleton 70), ("x", .insert 1), ("y", .ofList [1, 70, 1])]

/-- Given to the empty set, the shared storage is taken over. Adding a member that is there
leaves it shared, and taking one out does not show through the other handle. Two handles on
one storage subtract like two that only have the same members. -/
theorem trio_isolated :
    let s := (Shelf.run {} trio).1
    let s' := (Shelf.run {} apart).1
    s.find? "b" = s.find? "a" ∧ s'.find? "x" ≠ s'.find? "y" ∧
    (s.apply "c" (.union "b")).1.Share "c" "b" ∧
    (s.apply "b" (.insert 70)).1.find? "b" = s.find? "a" ∧
    (s.apply "b" (.erase 70)).1.Alone "b" ∧
    (s.apply "b" (.erase 70)).1.find? "a" = s.find? "a" ∧
    (s.apply "b" (.subtract "a")).1.contents "b" = (s'.apply "x" (.subtract "y")).1.contents "x" ∧
    (s.apply "b" (.subtract "a")).2 = (s'.apply "x" (.subtract "y")).2 := by
  intro s s'
  obtain ⟨-, next⟩ := shared_storage_never_shows trio
  obtain ⟨-, union, -⟩ := next "c" (.union "b")
  obtain ⟨-, insert, -⟩ := next "b" (.insert 70)
  obtain ⟨-, erase, -⟩ := next "b" (.erase 70)
  obtain ⟨-, -, alike⟩ := next "b" (.subtract "a")
  have adopts : (s.ready "c" (.union "b")).Adopts "c" (.union "b") "b" :=
    ⟨rfl, by decide +kernel, by decide +kernel⟩
  have kept := insert.kept rfl (by decide +kernel)
  have alone := erase.moved rfl (by decide +kernel) (fun t adopts => by cases adopts.1)
  have untouched := erase.others "a" (by decide)
  obtain ⟨members, replies⟩ := alike apart "x" "y" rfl (by decide +kernel) (by decide +kernel)
  refine ⟨by decide +kernel, by decide +kernel, (union.adopted "b" adopts).2, ?_, alone, ?_,
    members, replies⟩
  · rw [kept]
    decide +kernel
  · rw [untouched]
    decide +kernel

end MemFlow

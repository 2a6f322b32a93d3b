import Mathlib.Data.Set.Card
import MemFlow.Proofs.SetClosures

/-!
# What a memo remembers

A memo is asked about descriptors and about sets of them, one question after the other, and
some of the questions are refused. At every point it answers as the registry would. What it
remembers can be told from the questions alone: each registered descriptor that it was asked
about, and of a set those members that come before the first one that is not registered.
-/

namespace MemFlow

/-- A question that a memo can be asked. -/
inductive Question where
  | desc (d : DescId)
  | set (s : DescSet)
deriving DecidableEq

/-- The question gets as far as closing the descriptor. A set is walked in ascending order up
to its first member that is not registered. -/
def Question.Closes (r : Registry) : Question → DescId → Prop
  | .desc c, d => d = c ∧ r.isRegistered d = true
  | .set s, d => d ∈ s ∧ r.isRegistered d = true ∧
      ∀ e ∈ s, r.isRegistered e = false → d.num < e.num

namespace ClosureMemo

/-- The answer to a question, and the memo after it. -/
def answer (m : ClosureMemo) : Question → ClosureMemo × Except RegistryError DescSet
  | .desc d => m.ask d
  | .set s => m.askSet s

/-- The memo after a series of questions, whether they were answered or refused. -/
def after (m : ClosureMemo) (asked : List Question) : ClosureMemo :=
  asked.foldl (fun m q => (m.answer q).1) m

/-- The memo answers as the registry does, and remembers each of the given descriptors once
and no other. -/
structure Remembers (m : ClosureMemo) (r : Registry) (strict : Bool) (closed : DescId → Prop) :
    Prop extends m.Answers r strict where
  nodup : (m.known.map Prod.fst).Nodup
  mem_iff : ∀ d, d ∈ m.known.map Prod.fst ↔ closed d

variable {m : ClosureMemo} {r : Registry} {strict : Bool} {closed : DescId → Prop}

theorem remembers_new (r : Registry) (strict : Bool) :
    Remembers { registry := r, strict } r strict (fun _ => False) :=
  { answers_new r strict with nodup := List.nodup_nil, mem_iff := by simp }

theorem Remembers.congr {closed' : DescId → Prop} (h : m.Remembers r strict closed)
    (same : ∀ d, closed d ↔ closed' d) : m.Remembers r strict closed' :=
  { h with mem_iff := fun d => (h.mem_iff d).trans (same d) }

/-! ## One descriptor -/

theorem closure_unregistered {d : DescId} (h : r.isRegistered d = false) (strict : Bool) :
    r.closure strict d = .error (.unregistered d) := by
  rw [Registry.closure, Registry.closeInto_unregistered h, Registry.result]

/-- Asking about a descriptor remembers it, unless it is refused. -/
theorem Remembers.ask (h : m.Remembers r strict closed) (d : DescId) :
    (m.ask d).1.Remembers r strict (fun e => closed e ∨ (e = d ∧ r.isRegistered d = true)) := by
  have answers := (ask_closure h.toAnswers d).1
  obtain ⟨rfl, rfl, -⟩ := h.toAnswers
  unfold ClosureMemo.ask at answers ⊢
  split
  · rename_i s found
    have before : closed d := by
      obtain ⟨front, back, split, -⟩ := List.lookup_eq_some_iff.mp found
      apply (h.mem_iff d).mp
      simp [split]
    apply h.congr
    intro e
    constructor
    · exact Or.inl
    · rintro (he | ⟨rfl, -⟩)
      · exact he
      · exact before
  · rename_i absent
    by_cases registered : m.registry.isRegistered d = true
    · obtain ⟨c, hc⟩ := Registry.closure_of_registered registered m.strict
      simp only [absent, hc] at answers ⊢
      refine { answers with nodup := ?_, mem_iff := ?_ }
      · rw [List.map_cons, List.nodup_cons]
        refine ⟨?_, h.nodup⟩
        intro again
        obtain ⟨p, hp, rfl⟩ := List.mem_map.mp again
        have := List.lookup_eq_none_iff.mp absent p hp
        simp at this
      · intro e
        rw [List.map_cons, List.mem_cons, h.mem_iff]
        simp only [registered, and_true]
        exact or_comm
    · have refused := closure_unregistered (by simpa using registered) m.strict
      simp only [refused]
      apply h.congr
      intro e
      simp [registered]

/-! ## A walk over several -/

/-- A walk remembers what it passes before the first descriptor that is refused. -/
theorem Remembers.askAll (h : m.Remembers r strict closed) (ds : List DescId) (acc : DescSet) :
    (m.askAll ds acc).1.Remembers r strict
      (fun e => closed e ∨ e ∈ ds.takeWhile r.isRegistered) := by
  induction ds generalizing m closed acc with
  | nil =>
    apply h.congr
    simp
  | cons d ds ih =>
    have first := h.ask d
    have same := (ask_closure h.toAnswers d).2
    rcases asked : m.ask d with ⟨m', answer⟩
    rw [asked] at first same
    simp only [ClosureMemo.askAll, asked]
    by_cases registered : r.isRegistered d = true
    · obtain ⟨c, hc⟩ := Registry.closure_of_registered registered strict
      obtain rfl : answer = .ok c := same.trans hc
      apply (ih first (acc.union c).1).congr
      intro e
      rw [List.takeWhile_cons_of_pos registered, List.mem_cons]
      simp only [registered, and_true, or_assoc]
    · obtain rfl : answer = .error (.unregistered d) :=
        same.trans (closure_unregistered (by simpa using registered) strict)
      apply first.congr
      intro e
      rw [List.takeWhile_cons_of_neg registered]
      simp [registered]

/-- A walk is refused for the first descriptor that is not registered. -/
theorem askAll_unregistered (h : m.Answers r strict) {ds : List DescId} {d : DescId}
    (unknown : ds.find? (!r.isRegistered ·) = some d) (acc : DescSet) :
    (m.askAll ds acc).2 = .error (.unregistered d) := by
  induction ds generalizing m acc with
  | nil => cases unknown
  | cons c ds ih =>
    obtain ⟨answers, same⟩ := ask_closure h c
    rcases asked : m.ask c with ⟨m', answer⟩
    rw [asked] at answers same
    simp only [askAll, asked]
    by_cases registered : r.isRegistered c = true
    · rw [List.find?_cons_of_neg (by simpa using registered)] at unknown
      obtain ⟨s, hs⟩ := Registry.closure_of_registered registered strict
      obtain rfl : answer = .ok s := same.trans hs
      exact ih answers unknown (acc.union s).1
    · rw [List.find?_cons_of_pos (by simpa using registered)] at unknown
      cases unknown
      obtain rfl : answer = .error (.unregistered d) :=
        same.trans (closure_unregistered (by simpa using registered) strict)
      rfl

/-! ## Any question, and any series of them -/

theorem Remembers.answer (h : m.Remembers r strict closed) (q : Question) :
    (m.answer q).1.Remembers r strict (fun d => closed d ∨ q.Closes r d) := by
  cases q with
  | desc c =>
    apply (h.ask c).congr
    intro d
    apply or_congr_right
    exact and_congr_right fun same => by rw [same]
  | set s =>
    apply (h.askAll s.toList ∅).congr
    intro d
    rw [mem_takeWhile_of_ascending s.pairwise_toList]
    simp only [DescSet.mem_toList, Question.Closes]

theorem Remembers.after (h : m.Remembers r strict closed) (asked : List Question) :
    (m.after asked).Remembers r strict (fun d => closed d ∨ ∃ q ∈ asked, q.Closes r d) := by
  induction asked generalizing m closed with
  | nil =>
    apply h.congr
    simp
  | cons q asked ih =>
    apply (ih (h.answer q)).congr
    intro d
    simp only [List.exists_mem_cons_iff, or_assoc]

theorem Remembers.mem_known (h : m.Remembers r strict closed) {d : DescId} {c : DescSet} :
    (d, c) ∈ m.known ↔ closed d ∧ r.closure strict d = .ok c := by
  have remembered : ∀ s, (d, s) ∈ m.known → r.closure strict d = .ok s := by
    intro s hs
    apply h.known d s
    obtain ⟨front, back, split⟩ := List.append_of_mem hs
    refine List.lookup_eq_some_iff.mpr ⟨front, back, split, ?_⟩
    -- An earlier entry for `d` would be the second one.
    intro p hp
    have nodup := h.nodup
    rw [split, List.map_append, List.map_cons, List.nodup_append] at nodup
    have other := nodup.2.2 p.1 (List.mem_map_of_mem hp) d List.mem_cons_self
    simpa using Ne.symm other
  constructor
  · intro hc
    exact ⟨(h.mem_iff d).mp (List.mem_map_of_mem hc), remembered c hc⟩
  · rintro ⟨hd, hc⟩
    obtain ⟨⟨d', s⟩, hs, rfl⟩ := List.mem_map.mp ((h.mem_iff d).mpr hd)
    have same := (remembered s hs).symm.trans hc
    cases same
    exact hs

theorem Remembers.size_eq (h : m.Remembers r strict closed) : m.size = {d | closed d}.ncard := by
  have members : {d | closed d} = ↑(m.known.map Prod.fst).toFinset := by
    ext d
    rw [List.coe_toFinset]
    exact (h.mem_iff d).symm
  rw [members, Set.ncard_coe_finset, List.toFinset_card_of_nodup h.nodup, List.length_map, size]

theorem Answers.askSet_known (h : m.Answers r strict) (wf : r.WellFormed) {s : DescSet}
    (known : r.Knows s) : (m.askSet s).2 = r.closureOfSet strict s := by
  obtain ⟨m', c, asked⟩ := askSet_ok h known
  obtain ⟨c', closes, members'⟩ := wf.closureOfSet_ok known strict
  have members := (askSet_spec asked h).2 wf
  have same : c = c' := by
    apply DescSet.ext
    apply IdSet.ext_mem
    intro v
    exact (members ⟨v⟩).trans (members' ⟨v⟩).symm
  rw [asked, closes, same]

end ClosureMemo

/-- **A memo is transparent.** Over every registry that requests lead to, after any series of
questions, refused ones included, a memo answers about a descriptor what the registry answers.
About a set whose members are all registered it answers what the registry computes for the
set, and any other set it refuses for the least member that is not registered, all memory
among the members or not. It remembers each registered descriptor that it was asked about or
that it met in a set before an unregistered one, with the closure of it, and nothing else. -/
theorem memo_is_transparent (edits : List RegistryEdit) (strict : Bool)
    (asked : List Question) :
    let r := Registry.initial.run edits
    let m := ClosureMemo.after { registry := r, strict } asked
    (∀ d, (m.ask d).2 = r.closure strict d) ∧
    (∀ s, r.Knows s → (m.askSet s).2 = r.closureOfSet strict s) ∧
    (∀ s, ¬ r.Knows s →
      ∃ d, r.LeastUnknown s d ∧ (m.askSet s).2 = .error (.unregistered d)) ∧
    (∀ d c, (d, c) ∈ m.known ↔
      (∃ q ∈ asked, q.Closes r d) ∧ r.closure strict d = .ok c) ∧
    (m.known.map Prod.fst).Nodup ∧
    m.size = {d | ∃ q ∈ asked, q.Closes r d}.ncard := by
  intro r m
  have wf : r.WellFormed := Registry.wellFormed_run edits
  have remembers : m.Remembers r strict (fun d => ∃ q ∈ asked, q.Closes r d) := by
    apply ((ClosureMemo.remembers_new r strict).after asked).congr
    simp
  refine ⟨?_, ?_, ?_, ?_, remembers.nodup, remembers.size_eq⟩
  · intro d
    exact (ClosureMemo.ask_closure remembers.toAnswers d).2
  · intro s known
    exact remembers.askSet_known wf known
  · intro s unknown
    obtain ⟨d, least⟩ := Registry.exists_leastUnknown unknown
    have first := Registry.find?_unknown_eq_some.mpr least
    exact ⟨d, least, ClosureMemo.askAll_unregistered remembers.toAnswers first ∅⟩
  · intro d c
    exact remembers.mem_known

/-- A part of a variable is asked about twice, once directly and once in a set that also names
all memory and an unknown id, and a question about another unknown id is refused in between. -/
def quayQuestions : List Question :=
  [.desc ⟨3⟩, .desc ⟨9⟩, .set (.ofList [⟨8⟩, .allMem, ⟨3⟩, ⟨4⟩])]

/-- Three closures are remembered. Sets are still answered as the registry would, and all memory
does not save a set with unknown ids from being refused for the least of them. -/
theorem quay_remembered :
    let m := ClosureMemo.after { registry := quay, strict := true } quayQuestions
    let known : DescSet := .ofList [⟨3⟩, ⟨6⟩]
    let beyond : DescSet := .ofList [⟨9⟩, .allMem, ⟨8⟩]
    quay.Knows known ∧ ¬ quay.Knows beyond ∧
    (m.ask ⟨4⟩).2 = quay.closure true ⟨4⟩ ∧
    (m.askSet known).2 = quay.closureOfSet true known ∧
    (m.askSet beyond).2 = .error (.unregistered ⟨8⟩) ∧
    {d | ∃ q ∈ quayQuestions, q.Closes quay d}.ncard = 3 := by
  intro m known beyond
  obtain ⟨single, sets, refused, -, -, size⟩ := memo_is_transparent quayEdits true quayQuestions
  have knows : quay.Knows known := by
    apply Registry.find?_unknown_eq_none.mp
    decide
  have unknown : ¬ quay.Knows beyond := fun all => absurd (all ⟨8⟩ (by decide)) (by decide)
  refine ⟨knows, unknown, single ⟨4⟩, sets known knows, ?_, ?_⟩
  · obtain ⟨d, least, answer⟩ := refused beyond unknown
    obtain rfl : ⟨8⟩ = d := Option.some.inj (Registry.find?_unknown_eq_some.mpr least)
    exact answer
  · have three : m.size = 3 := by decide
    exact size.symm.trans three

end MemFlow

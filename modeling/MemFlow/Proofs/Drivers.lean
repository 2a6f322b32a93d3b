import Mathlib.Data.Fintype.Card
import MemFlow.Fixpoint
import MemFlow.Proofs.Iteration

/-!
# The two drivers end

`Drains` and `Sweeps` are the loops of the two drivers as they are meant, with
no bound on their steps. The bounded loops that run are these loops
(`drains_drain`, `sweeps_of_settled`), so the bound is never felt. Whichever loop
ran, the outs it ends with are reached by refreshes and settled at every block.
-/

namespace MemFlow

namespace Equations

variable {n : Nat} {eq : Equations n} {shape : Shape n}

/-! ## The worklist -/

/-- What waits after the block at the head of the queue was visited. -/
def queueAfter (eq : Equations n) (shape : Shape n) (b : Fin n) (queue : List (Fin n))
    (outs : Vector IdSet n) : List (Fin n) :=
  if (eq.refresh shape b outs).2 then enqueue queue (shape.succs.get b) else queue

/-- The loop of the worklist: it goes on until nothing waits. -/
inductive Drains (eq : Equations n) (shape : Shape n) :
    List (Fin n) → Vector IdSet n → List (Visit n) → Vector IdSet n → Prop
  | done (outs : Vector IdSet n) : Drains eq shape [] outs [] outs
  | visit {b : Fin n} {queue : List (Fin n)} {outs final : Vector IdSet n}
      {visits : List (Visit n)}
      (rest : Drains eq shape (eq.queueAfter shape b queue outs) (eq.refresh shape b outs).1
        visits final) :
      Drains eq shape (b :: queue) outs (⟨b, (eq.refresh shape b outs).2⟩ :: visits) final

theorem mem_enqueue {queue bs : List (Fin n)} {x : Fin n} :
    x ∈ enqueue queue bs ↔ x ∈ queue ∨ x ∈ bs := by
  unfold enqueue
  induction bs generalizing queue with
  | nil => simp
  | cons b bs ih =>
    rw [List.foldl_cons, ih]
    by_cases h : b ∈ queue
    · rw [if_pos h, List.mem_cons]
      constructor
      · rintro (hq | hb)
        · exact Or.inl hq
        · exact Or.inr (Or.inr hb)
      · rintro (hq | rfl | hb)
        · exact Or.inl hq
        · exact Or.inl h
        · exact Or.inr hb
    · simp [h, or_assoc]

theorem nodup_enqueue {queue bs : List (Fin n)} (h : queue.Nodup) : (enqueue queue bs).Nodup := by
  unfold enqueue
  induction bs generalizing queue with
  | nil => exact h
  | cons b bs ih =>
    rw [List.foldl_cons]
    apply ih
    split
    · exact h
    · rename_i hb
      exact List.nodup_append.mpr ⟨h, List.nodup_singleton b, fun a ha c hc he =>
        hb (by rw [List.mem_singleton.mp hc] at he; exact he ▸ ha)⟩

theorem nodup_queueAfter (eq : Equations n) (shape : Shape n) (b : Fin n)
    {queue : List (Fin n)} (outs : Vector IdSet n) (h : queue.Nodup) :
    (eq.queueAfter shape b queue outs).Nodup := by
  unfold queueAfter
  split
  · exact nodup_enqueue h
  · exact h

theorem length_le_of_nodup {queue : List (Fin n)} (h : queue.Nodup) : queue.length ≤ n := by
  simpa using h.length_le_card

/-- What is left to do: a change makes room for at most all blocks to wait
again, and a visit without one takes a block off the queue. -/
def work (eq : Equations n) (queue : List (Fin n)) (outs : Vector IdSet n) : Nat :=
  queue.length + n * eq.room outs

theorem work_visit (hg : eq.Grounded) {b : Fin n} {queue : List (Fin n)} {outs : Vector IdSet n}
    (h : Reached eq shape outs) (nodup : queue.Nodup) :
    eq.work (eq.queueAfter shape b queue outs) (eq.refresh shape b outs).1 <
      eq.work (b :: queue) outs := by
  unfold work
  cases hb : (eq.refresh shape b outs).2 with
  | false =>
    rw [refresh_settled (refresh_false_iff.mp hb), queueAfter, hb]
    simp
  | true =>
    -- At most `n` blocks wait afterwards, and there is room for `n` less in exchange.
    have waiting := length_le_of_nodup (nodup_queueAfter eq shape b outs nodup)
    have less := room_refresh hg h hb
    have : n * eq.room (eq.refresh shape b outs).1 + n ≤ n * eq.room outs :=
      Nat.mul_le_mul_left n less
    simp only [List.length_cons]
    omega

/-- **The worklist ends.** Given as many visits as there is work, the bounded
loop is the loop. -/
theorem drains_drain (hg : eq.Grounded) {fuel : Nat} {queue : List (Fin n)}
    {outs : Vector IdSet n} (log : List (Visit n)) (h : Reached eq shape outs)
    (nodup : queue.Nodup) (enough : eq.work queue outs ≤ fuel) :
    ∃ visits, Drains eq shape queue outs visits (eq.drain shape fuel queue outs log).1 ∧
      (eq.drain shape fuel queue outs log).2 = visits.reverse ++ log := by
  induction fuel generalizing queue outs log with
  | zero =>
    have : queue = [] := List.length_eq_zero_iff.mp (by unfold work at enough; omega)
    subst this
    exact ⟨[], .done outs, rfl⟩
  | succ fuel ih =>
    cases queue with
    | nil => exact ⟨[], .done outs, rfl⟩
    | cons b queue =>
      have tail := (List.nodup_cons.mp nodup).2
      have less := work_visit (b := b) hg h tail
      obtain ⟨visits, hd, hl⟩ := ih (⟨b, (eq.refresh shape b outs).2⟩ :: log) (.refresh b h)
        (nodup_queueAfter eq shape b outs tail) (by omega)
      refine ⟨_, .visit hd, ?_⟩
      rw [List.reverse_cons, List.append_assoc]
      exact hl

theorem drains_worklist (hg : eq.Grounded) {outs : Vector IdSet n} (h : Reached eq shape outs) :
    Drains eq shape (List.finRange n) outs (eq.worklist shape outs).2
      (eq.worklist shape outs).1 := by
  have enough : eq.work (List.finRange n) outs ≤ eq.visitBound + 1 := by
    have := Nat.mul_le_mul_left n (room_le_capacity h)
    simp only [work, visitBound, List.length_finRange, Nat.mul_comm eq.capacity n]
    omega
  obtain ⟨visits, hd, hl⟩ := drains_drain hg [] h (List.nodup_finRange n) enough
  simp only [worklist, hl, List.append_nil, List.reverse_reverse]
  exact hd

theorem drains_reached {queue : List (Fin n)} {outs final : Vector IdSet n}
    {visits : List (Visit n)} (h : Drains eq shape queue outs visits final)
    (reached : Reached eq shape outs) : Reached eq shape final := by
  induction h with
  | done => exact reached
  | visit _ ih => exact ih (.refresh _ reached)

theorem renewed_refresh {outs : Vector IdSet n} {b c : Fin n} (h : b ∉ shape.preds.get c) :
    eq.renewed shape (eq.refresh shape b outs).1 c = eq.renewed shape outs c := by
  have same : ∀ p ∈ shape.preds.get c, view (eq.refresh shape b outs).1 p = view outs p := by
    intro p hp
    have hpb : p ≠ b := fun he => h (he ▸ hp)
    rw [view_refresh, if_neg hpb]
  apply IdSet.ext_mem
  intro v
  rw [← IdSet.mem_members_iff, ← IdSet.mem_members_iff, members_renewed, members_renewed,
    image, image, joined_congr same]

/-- One visit keeps the invariant of the worklist: whatever does not wait is
settled. -/
theorem settled_visit (hs : shape.Sound) {b : Fin n} {queue : List (Fin n)}
    {outs : Vector IdSet n} (h : ∀ c, c ∉ b :: queue → eq.Settled shape outs c) (c : Fin n)
    (hc : c ∉ eq.queueAfter shape b queue outs) :
    eq.Settled shape (eq.refresh shape b outs).1 c := by
  cases hb : (eq.refresh shape b outs).2 with
  | false =>
    have settled := refresh_false_iff.mp hb
    rw [queueAfter, hb] at hc
    rw [refresh_settled settled]
    by_cases hcb : c = b
    · exact hcb ▸ settled
    · exact h c (by simpa [hcb] using hc)
  | true =>
    -- Not waiting now, `c` is no successor of `b`, so the change does not concern it.
    rw [queueAfter, hb, if_pos rfl, mem_enqueue, not_or] at hc
    have apart : b ∉ shape.preds.get c := fun hp => hc.2 ((hs.agree b c).mp hp)
    rw [Settled, renewed_refresh apart, get_refresh]
    split
    · rename_i hcb
      rw [hcb]
    · rename_i hcb
      exact h c (by simp [hcb, hc.1])

theorem drains_settled (hs : shape.Sound) {queue : List (Fin n)} {outs final : Vector IdSet n}
    {visits : List (Visit n)} (h : Drains eq shape queue outs visits final)
    (inv : ∀ c, c ∉ queue → eq.Settled shape outs c) (c : Fin n) :
    eq.Settled shape final c := by
  induction h with
  | done => exact inv c (by simp)
  | visit _ ih => exact ih (settled_visit hs inv)

/-! ## Sweeping -/

theorem sweep_reached {order : List (Fin n)} {outs : Vector IdSet n} (h : Reached eq shape outs) :
    Reached eq shape (eq.sweep shape order outs).1 := by
  induction order generalizing outs with
  | nil => exact h
  | cons b order ih => exact ih (.refresh b h)

/-- A sweep visits the blocks of its order, each where it stands. -/
theorem map_block_sweep (order : List (Fin n)) (outs : Vector IdSet n) :
    (eq.sweep shape order outs).2.map (·.block) = order := by
  induction order generalizing outs with
  | nil => rfl
  | cons b order ih => exact congrArg (b :: ·) (ih _)

/-- A sweep in this order changes nothing. -/
def Quiet (eq : Equations n) (shape : Shape n) (order : List (Fin n)) (outs : Vector IdSet n) :
    Prop :=
  Visit.anyChanged (eq.sweep shape order outs).2 = false

theorem sweep_quiet {order : List (Fin n)} {outs : Vector IdSet n}
    (h : eq.Quiet shape order outs) :
    (eq.sweep shape order outs).1 = outs ∧ ∀ b ∈ order, eq.Settled shape outs b := by
  induction order with
  | nil => exact ⟨rfl, fun _ hb => by cases hb⟩
  | cons b order ih =>
    rcases refresh_cases eq shape outs b with ⟨hb, hr⟩ | ⟨-, hr⟩
    · simp only [Quiet, sweep, hr, Visit.anyChanged, List.any_cons, Bool.false_or] at h ⊢
      obtain ⟨same, settled⟩ := ih h
      exact ⟨same, List.forall_mem_cons.mpr ⟨hb, settled⟩⟩
    · simp [Quiet, sweep, hr, Visit.anyChanged] at h

/-- Every change that a sweep makes uses up room. -/
theorem changes_add_room_le (hg : eq.Grounded) (order : List (Fin n)) {outs : Vector IdSet n}
    (h : Reached eq shape outs) :
    (Visit.changedBlocks (eq.sweep shape order outs).2).length +
      eq.room (eq.sweep shape order outs).1 ≤ eq.room outs := by
  induction order generalizing outs with
  | nil => simp [sweep, Visit.changedBlocks]
  | cons b order ih =>
    have later := ih (.refresh b h)
    cases hb : (eq.refresh shape b outs).2 with
    | false =>
      have hr := refresh_settled (refresh_false_iff.mp hb)
      rw [hr] at later
      simpa [sweep, hr, Visit.changedBlocks] using later
    | true =>
      have less := room_refresh hg h hb
      simp only [sweep, hb, Visit.changedBlocks, List.filter_cons_of_pos, List.map_cons,
        List.length_cons] at later ⊢
      omega

theorem length_changedBlocks_pos {visits : List (Visit n)} (h : ¬ Visit.anyChanged visits = false) :
    0 < (Visit.changedBlocks visits).length := by
  obtain ⟨visit, hv, changed⟩ := List.any_eq_true.mp (eq_true_of_ne_false h)
  rw [Visit.changedBlocks, List.length_map]
  exact List.length_pos_of_mem (List.mem_filter.mpr ⟨hv, changed⟩)

/-- The loop of sweeping: it sweeps until a sweep changes nothing. When no more
sweeps are allowed the worklist takes over with every block in line. -/
inductive Sweeps (eq : Equations n) (shape : Shape n) (order : List (Fin n)) :
    Option Nat → Vector IdSet n → Run n → Vector IdSet n → Prop
  | exhausted {outs final : Vector IdSet n} {visits : List (Visit n)}
      (rest : Drains eq shape (List.finRange n) outs visits final) :
      Sweeps eq shape order (some 0) outs { visits, fellBack := true } final
  | quiet {limit : Option Nat} {outs : Vector IdSet n} (allowed : limit ≠ some 0)
      (none : Visit.anyChanged (eq.sweep shape order outs).2 = false) :
      Sweeps eq shape order limit outs { sweeps := [(eq.sweep shape order outs).2] }
        (eq.sweep shape order outs).1
  | again (limit : Option Nat) (run : Run n) {outs final : Vector IdSet n}
      (allowed : limit ≠ some 0) (some : Visit.anyChanged (eq.sweep shape order outs).2 = true)
      (rest : Sweeps eq shape order (limit.map (· - 1)) (eq.sweep shape order outs).1 run final) :
      Sweeps eq shape order limit outs
        { run with sweeps := (eq.sweep shape order outs).2 :: run.sweeps } final

theorem sweepUpTo_quiet {order : List (Fin n)} {outs : Vector IdSet n} (k : Nat)
    (h : eq.Quiet shape order outs) :
    eq.sweepUpTo shape order (k + 1) outs =
      ⟨(eq.sweep shape order outs).1, [(eq.sweep shape order outs).2], true⟩ := by
  simp [sweepUpTo, show Visit.anyChanged (eq.sweep shape order outs).2 = false from h]

theorem sweepUpTo_again {order : List (Fin n)} {outs : Vector IdSet n} (k : Nat)
    (h : ¬ eq.Quiet shape order outs) :
    eq.sweepUpTo shape order (k + 1) outs =
      { eq.sweepUpTo shape order k (eq.sweep shape order outs).1 with
        sweeps := (eq.sweep shape order outs).2 ::
          (eq.sweepUpTo shape order k (eq.sweep shape order outs).1).sweeps } := by
  simp [sweepUpTo, show Visit.anyChanged (eq.sweep shape order outs).2 = true from
    eq_true_of_ne_false h]

/-- **Sweeping settles.** More sweeps than there is room for changes include one
that changes nothing. -/
theorem settled_sweepUpTo (hg : eq.Grounded) {order : List (Fin n)} {k : Nat}
    {outs : Vector IdSet n} (h : Reached eq shape outs) (enough : eq.room outs < k) :
    (eq.sweepUpTo shape order k outs).settled = true := by
  induction k generalizing outs with
  | zero => omega
  | succ k ih =>
    by_cases hq : eq.Quiet shape order outs
    · rw [sweepUpTo_quiet k hq]
    · rw [sweepUpTo_again k hq]
      have used := changes_add_room_le hg order h
      have some := length_changedBlocks_pos hq
      exact ih (sweep_reached h) (by omega)

/-- Without a limit there are more sweeps than room for changes, and they settle. -/
theorem settled_without_limit (hg : eq.Grounded) (shape : Shape n) (order : List (Fin n)) :
    (eq.sweepUpTo shape order (eq.capacity + 1) (eq.start shape)).settled = true :=
  settled_sweepUpTo hg .start (Nat.lt_succ_of_le (room_le_capacity .start))

/-- Sweeps that settled within a bound are the loop, with that bound as the
limit and with none. -/
theorem sweeps_of_settled {order : List (Fin n)} {k : Nat} {outs : Vector IdSet n}
    (h : (eq.sweepUpTo shape order k outs).settled = true) {limit : Option Nat}
    (hl : limit = none ∨ limit = some k) :
    Sweeps eq shape order limit outs { sweeps := (eq.sweepUpTo shape order k outs).sweeps }
      (eq.sweepUpTo shape order k outs).outs := by
  induction k generalizing outs limit with
  | zero => cases h
  | succ k ih =>
    have allowed : limit ≠ some 0 := by
      rcases hl with rfl | rfl <;> simp
    by_cases hq : eq.Quiet shape order outs
    · rw [sweepUpTo_quiet k hq]
      exact .quiet allowed hq
    · rw [sweepUpTo_again k hq] at h ⊢
      refine .again limit _ allowed (eq_true_of_ne_false hq) (ih h ?_)
      rcases hl with rfl | rfl <;> simp

/-- Sweeps that did not settle within the limit are the loop with the worklist
after them. -/
theorem sweeps_of_unsettled {order : List (Fin n)} {k : Nat} {outs final : Vector IdSet n}
    {visits : List (Visit n)} (h : (eq.sweepUpTo shape order k outs).settled = false)
    (rest : Drains eq shape (List.finRange n) (eq.sweepUpTo shape order k outs).outs visits final) :
    Sweeps eq shape order (some k) outs
      { sweeps := (eq.sweepUpTo shape order k outs).sweeps, visits, fellBack := true } final := by
  induction k generalizing outs with
  | zero => exact .exhausted rest
  | succ k ih =>
    by_cases hq : eq.Quiet shape order outs
    · rw [sweepUpTo_quiet k hq] at h
      cases h
    · rw [sweepUpTo_again k hq] at h rest ⊢
      exact .again (some (k + 1)) _ (by simp) (eq_true_of_ne_false hq) (ih h rest)

theorem sweepUpTo_reached {order : List (Fin n)} {k : Nat} {outs : Vector IdSet n}
    (h : Reached eq shape outs) : Reached eq shape (eq.sweepUpTo shape order k outs).outs := by
  induction k generalizing outs with
  | zero => exact h
  | succ k ih =>
    by_cases hq : eq.Quiet shape order outs
    · rw [sweepUpTo_quiet k hq]
      exact sweep_reached h
    · rw [sweepUpTo_again k hq]
      exact ih (sweep_reached h)

theorem sweeps_reached {order : List (Fin n)} {limit : Option Nat} {outs final : Vector IdSet n}
    {run : Run n} (h : Sweeps eq shape order limit outs run final)
    (reached : Reached eq shape outs) : Reached eq shape final := by
  induction h with
  | exhausted rest => exact drains_reached rest reached
  | quiet => exact sweep_reached reached
  | again _ _ _ _ _ ih => exact ih (sweep_reached reached)

theorem sweeps_settled (hs : shape.Sound) {order : List (Fin n)} (all : ∀ b, b ∈ order)
    {limit : Option Nat} {outs final : Vector IdSet n} {run : Run n}
    (h : Sweeps eq shape order limit outs run final) (b : Fin n) : eq.Settled shape final b := by
  induction h with
  | exhausted rest => exact drains_settled hs rest (fun c hc => absurd (List.mem_finRange c) hc) b
  | quiet _ none =>
    obtain ⟨same, settled⟩ := sweep_quiet none
    rw [same]
    exact settled b (all b)
  | again _ _ _ _ _ ih => exact ih

end Equations

end MemFlow

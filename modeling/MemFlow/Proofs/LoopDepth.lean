import Mathlib.Data.Nat.SuccPred
import Mathlib.Order.SuccPred.Archimedean
import MemFlow.Proofs.ReversePostorder
import MemFlow.Proofs.SweepCounts

/-!
# How many sweeps are needed

What an out holds in the end was decided somewhere and handed on along a path: for
a union that an id is in it, for an intersection that it is not. Such a path need
not enter a block twice. One sweep hands a decision on along all the edges that go
forward in the order, and only an edge that goes back makes it wait for the next
sweep. So there are at most as many sweeps as a path without repeated blocks can go
back, and one more to arrive and one more to see that nothing changes.
-/

namespace MemFlow

/-! ## Going back in an order -/

/-- How many steps of a path go back in an order. -/
def retreats {α : Type} [DecidableEq α] (order : List α) : List α → Nat
  | [] => 0
  | [_] => 0
  | p :: q :: rest =>
    (if order.idxOf q < order.idxOf p then 1 else 0) + retreats order (q :: rest)

/-- The depth of a graph: the most that a path without repeated blocks goes back in the
reverse postorder. -/
def FlowGraph.IsDepth (g : FlowGraph) (depth : Nat) : Prop :=
  IsGreatest {k | ∃ qs, g.IsPath qs ∧ qs.Nodup ∧ retreats g.rpo qs = k} depth

section
variable {α β : Type} [DecidableEq α] [DecidableEq β] {order : List α}

theorem retreats_snoc (qs : List α) (p b : α) :
    retreats order (qs ++ [p] ++ [b]) =
      retreats order (qs ++ [p]) + if order.idxOf b < order.idxOf p then 1 else 0 := by
  induction qs with
  | nil => simp [retreats]
  | cons q qs ih =>
    cases qs with
    | nil =>
      simp only [List.cons_append, List.nil_append, retreats]
      omega
    | cons r qs =>
      simp only [List.cons_append, retreats] at ih ⊢
      omega

theorem retreats_le_length (qs : List α) : retreats order qs ≤ qs.length := by
  fun_induction retreats order qs with
  | case1 => exact Nat.le_refl 0
  | case2 => exact Nat.zero_le _
  | case3 p q rest ih =>
    rw [List.length_cons]
    split <;> omega

theorem retreats_eq_zero {qs : List α}
    (h : qs.IsChain fun p q => order.idxOf p < order.idxOf q) : retreats order qs = 0 := by
  fun_induction retreats order qs with
  | case1 => rfl
  | case2 => rfl
  | case3 p q rest ih =>
    obtain ⟨forward, later⟩ := List.isChain_cons_cons.mp h
    rw [ih later, if_neg (by omega)]

theorem idxOf_map {f : α → β} (hf : Function.Injective f) (order : List α) (a : α) :
    (order.map f).idxOf (f a) = order.idxOf a := by
  induction order with
  | nil => rfl
  | cons b order ih =>
    by_cases same : b = a
    · subst same
      simp
    · have other : f b ≠ f a := fun h => same (hf h)
      rw [List.map_cons, List.idxOf_cons_ne _ other, List.idxOf_cons_ne _ same, ih]

theorem retreats_map {f : α → β} (hf : Function.Injective f) (qs : List α) :
    retreats (order.map f) (qs.map f) = retreats order qs := by
  fun_induction retreats order qs with
  | case1 => rfl
  | case2 => rfl
  | case3 p q rest ih =>
    rw [List.map_cons] at ih
    rw [List.map_cons, List.map_cons, retreats, ih, idxOf_map hf, idxOf_map hf]

/-- What does not come after a member of the order comes before it. -/
theorem mem_before {pre post : List α} {p b : α} (nodup : (pre ++ b :: post).Nodup) (other : p ≠ b)
    (forward : ¬ (pre ++ b :: post).idxOf b < (pre ++ b :: post).idxOf p) : p ∈ pre := by
  by_contra missing
  have first : b ∉ pre := by
    intro again
    exact (List.nodup_append.mp nodup).2.2 b again b List.mem_cons_self rfl
  apply forward
  rw [List.idxOf_append_of_notMem first, List.idxOf_append_of_notMem missing,
    List.idxOf_cons_self, List.idxOf_cons_ne _ other.symm]
  omega

end

theorem FlowGraph.exists_isDepth (g : FlowGraph) : ∃ depth, g.IsDepth depth := by
  let counts : Set Nat := {k | ∃ qs, g.IsPath qs ∧ qs.Nodup ∧ retreats g.rpo qs = k}
  have some_path : counts.Nonempty := ⟨0, [], ⟨by simp, .nil⟩, List.nodup_nil, rfl⟩
  have bounded : BddAbove counts := by
    refine ⟨g.blocks.length, ?_⟩
    rintro k ⟨qs, path, nodup, rfl⟩
    have short : qs.length ≤ g.blocks.length := (nodup.subperm path.1).length_le
    exact (retreats_le_length qs).trans short
  exact bounded.exists_isGreatest_of_nonempty some_path

/-! ## What outs decide -/

namespace Confluence

/-- The way outs move, a union decides that an id is in an out and an intersection that it is
not. -/
def Decides : Confluence → Set Nat → Nat → Prop
  | .union, A, v => v ∈ A
  | .inter, A, v => v ∉ A

theorem toward_iff {c : Confluence} {A B : Set Nat} :
    c.Toward A B ↔ ∀ v, c.Decides A v → c.Decides B v := by
  cases c with
  | union => exact Iff.rfl
  | inter => exact forall_congr' fun v => not_imp_not.symm

end Confluence

namespace Equations

variable {n : Nat} {eq : Equations n} {shape : Shape n} {order : List (Fin n)}
  {outs : Vector IdSet n} {v : Nat} {p b : Fin n}

/-- The block decides about the id whatever comes in. -/
def Originates (eq : Equations n) (shape : Shape n) (v : Nat) (b : Fin n) : Prop :=
  ∀ X, eq.confluence.Decides (eq.image shape X b) v

/-- What one predecessor decided about the id, the block decides too. -/
def Relays (eq : Equations n) (shape : Shape n) (v : Nat) (p b : Fin n) : Prop :=
  p ∈ shape.preds.get b ∧
    ∀ X, eq.confluence.Decides (X p) v → eq.confluence.Decides (eq.image shape X b) v

/-- A block decides by itself or because one predecessor did. -/
theorem decides_image {X : Fin n → Set Nat} (h : eq.confluence.Decides (eq.image shape X b) v) :
    eq.Originates shape v b ∨
      ∃ p, eq.Relays shape v p b ∧ eq.confluence.Decides (X p) v := by
  unfold Originates Relays
  cases hc : eq.confluence with
  | union =>
    simp only [hc, Confluence.Decides, image, joined, Set.mem_union, Set.mem_sdiff] at h ⊢
    rcases h with gen | ⟨⟨p, hp, hv⟩, kept⟩
    · exact Or.inl fun X => Or.inl gen
    · exact Or.inr ⟨p, ⟨hp, fun X hX => Or.inr ⟨⟨p, hp, hX⟩, kept⟩⟩, hv⟩
  | inter =>
    simp only [hc, Confluence.Decides, image, joined, Set.mem_union, Set.mem_sdiff, not_or,
      not_and, not_not] at h ⊢
    obtain ⟨gen, lost⟩ := h
    by_cases killed : v ∈ (eq.kill.get b).members
    · exact Or.inl fun X => ⟨gen, fun _ => killed⟩
    · have missing : ¬ (b ≠ shape.entry ∧ shape.preds.get b ≠ [] ∧
          ∀ p ∈ shape.preds.get b, v ∈ X p) := fun here => killed (lost here)
      -- Where the entry is entered and where no edge leads nothing comes in, whatever the outs.
      by_cases here : b ≠ shape.entry ∧ shape.preds.get b ≠ []
      · obtain ⟨p, hp, hv⟩ : ∃ p ∈ shape.preds.get b, v ∉ X p := by
          by_contra none
          push Not at none
          exact missing ⟨here.1, here.2, none⟩
        exact Or.inr ⟨p, ⟨hp, fun X hX => ⟨gen, fun all => absurd (all.2.2 p hp) hX⟩⟩, hv⟩
      · exact Or.inl fun X => ⟨gen, fun all => absurd ⟨all.1, all.2.1⟩ here⟩

/-! ## Paths of decisions -/

/-- A decision about an id is made and handed on along `qs` to a block, through no block
twice. -/
inductive Carried (eq : Equations n) (shape : Shape n) (v : Nat) : List (Fin n) → Fin n → Prop
  | origin {b : Fin n} (here : eq.Originates shape v b) : Carried eq shape v [] b
  | relay {qs : List (Fin n)} {p b : Fin n} (before : Carried eq shape v qs p)
      (edge : eq.Relays shape v p b) (new : b ∉ qs ++ [p]) : Carried eq shape v (qs ++ [p]) b

theorem Carried.nodup {qs : List (Fin n)} (h : Carried eq shape v qs b) : (qs ++ [b]).Nodup := by
  induction h with
  | origin => exact List.nodup_singleton _
  | relay _ _ new ih =>
    apply List.nodup_append.mpr
    refine ⟨ih, List.nodup_singleton _, ?_⟩
    rintro a ha c hc rfl
    exact new (List.mem_singleton.mp hc ▸ ha)

theorem Carried.isChain {qs : List (Fin n)} (h : Carried eq shape v qs b) :
    (qs ++ [b]).IsChain fun p b => p ∈ shape.preds.get b := by
  induction h with
  | origin => exact .singleton _
  | @relay qs p b _ edge _ ih =>
    rw [List.append_assoc]
    exact List.isChain_append_cons_cons.mpr ⟨ih, edge.1, .singleton b⟩

theorem Carried.shorten {qs : List (Fin n)} (h : Carried eq shape v qs b) {a : Fin n}
    (ha : a ∈ qs ++ [b]) : ∃ qs, Carried eq shape v qs a := by
  induction h with
  | origin here =>
    rw [List.nil_append, List.mem_singleton] at ha
    exact ⟨[], ha ▸ .origin here⟩
  | relay before edge new ih =>
    rcases List.mem_append.mp ha with ha | ha
    · exact ih ha
    · rw [List.mem_singleton.mp ha]
      exact ⟨_, .relay before edge new⟩

theorem exists_carried {qs : List (Fin n)} (h : Carried eq shape v qs p)
    (edge : eq.Relays shape v p b) : ∃ qs, Carried eq shape v qs b := by
  by_cases again : b ∈ qs ++ [p]
  · exact h.shorten again
  · exact ⟨_, .relay h edge again⟩

/-- The ids about which a decision was made elsewhere and handed on to a block, as an out. -/
def handedOn (eq : Equations n) (shape : Shape n) (b : Fin n) : Set Nat :=
  match eq.confluence with
  | .union => {v | ∃ qs, Carried eq shape v qs b}
  | .inter => {v | ¬ ∃ qs, Carried eq shape v qs b}

theorem decides_handedOn :
    eq.confluence.Decides (eq.handedOn shape b) v ↔ ∃ qs, Carried eq shape v qs b := by
  unfold handedOn
  cases eq.confluence with
  | union => exact Iff.rfl
  | inter => exact not_not

/-- **Whatever refreshes decide was carried there.** -/
theorem carried_of_reached (hs : shape.Sound) (hg : eq.Grounded) (h : Reached eq shape outs)
    (decided : eq.confluence.Decides (view outs b) v) : ∃ qs, Carried eq shape v qs b := by
  have closed : ∀ b, eq.confluence.Toward (eq.image shape (eq.handedOn shape) b)
      (eq.handedOn shape b) := by
    intro b
    rw [Confluence.toward_iff]
    intro v hv
    rw [decides_handedOn]
    rcases decides_image hv with here | ⟨p, edge, before⟩
    · exact ⟨[], .origin here⟩
    · obtain ⟨qs, carried⟩ := decides_handedOn.mp before
      exact exists_carried carried edge
  have within := reached_toward hs hg h closed b
  exact decides_handedOn.mp (Confluence.toward_iff.mp within v decided)

/-! ## What sweeps hand on -/

theorem sweep_append (as bs : List (Fin n)) (outs : Vector IdSet n) :
    (eq.sweep shape (as ++ bs) outs).1 = (eq.sweep shape bs (eq.sweep shape as outs).1).1 := by
  induction as generalizing outs with
  | nil => rfl
  | cons a as ih => exact ih _

theorem sweep_toward (hg : eq.Grounded) (h : Reached eq shape outs) (bs : List (Fin n))
    (c : Fin n) : eq.confluence.Toward (view outs c) (view (eq.sweep shape bs outs).1 c) := by
  induction bs generalizing outs with
  | nil => exact Confluence.toward_refl _ _
  | cons a bs ih =>
    exact (refresh_toward (reached_rising hg h) a c).trans (ih (.refresh a h))

/-- What is decided when part of the blocks are swept is decided when more are. -/
theorem decides_sweep (hg : eq.Grounded) (h : Reached eq shape outs) {pre : List (Fin n)}
    (decided : eq.confluence.Decides (view (eq.sweep shape pre outs).1 b) v) (post : List (Fin n)) :
    eq.confluence.Decides (view (eq.sweep shape (pre ++ post) outs).1 b) v := by
  rw [sweep_append]
  exact Confluence.toward_iff.mp (sweep_toward hg (sweep_reached h) post b) v decided

/-- The last block that was swept has its out from what those before it left. -/
theorem view_sweep_snoc (pre : List (Fin n)) (b : Fin n) (outs : Vector IdSet n) :
    view (eq.sweep shape (pre ++ [b]) outs).1 b =
      eq.image shape (view (eq.sweep shape pre outs).1) b := by
  rw [sweep_append]
  exact (view_refresh _ b b).trans (if_pos rfl)

/-- The outs after a number of sweeps. -/
def sweptTimes (eq : Equations n) (shape : Shape n) (order : List (Fin n)) (k : Nat)
    (outs : Vector IdSet n) : Vector IdSet n :=
  (fun outs => (eq.sweep shape order outs).1)^[k] outs

theorem sweptTimes_succ (k : Nat) (outs : Vector IdSet n) :
    eq.sweptTimes shape order (k + 1) outs =
      (eq.sweep shape order (eq.sweptTimes shape order k outs)).1 :=
  Function.iterate_succ_apply' _ k outs

theorem sweptTimes_reached (h : Reached eq shape outs) (k : Nat) :
    Reached eq shape (eq.sweptTimes shape order k outs) := by
  induction k with
  | zero => exact h
  | succ k ih =>
    rw [sweptTimes_succ]
    exact sweep_reached ih

theorem sweptTimes_toward (hg : eq.Grounded) (h : Reached eq shape outs) {j k : Nat} (le : j ≤ k)
    (c : Fin n) : eq.confluence.Toward (view (eq.sweptTimes shape order j outs) c)
      (view (eq.sweptTimes shape order k outs) c) := by
  induction le with
  | refl => exact Confluence.toward_refl _ _
  | @step k _ ih =>
    rw [sweptTimes_succ]
    exact ih.trans (sweep_toward hg (sweptTimes_reached h k) order c)

/-- **A sweep hands a decision on until it has to go back.** A decision that is carried along a
path is made at its end when the blocks up to there are swept once more after as many sweeps as
the path goes back. -/
theorem decides_of_carried (hg : eq.Grounded) (nodup : order.Nodup) (cover : ∀ b, b ∈ order)
    (h : Reached eq shape outs) {qs : List (Fin n)} (carried : Carried eq shape v qs b)
    {pre post : List (Fin n)} (split : order = pre ++ b :: post) :
    eq.confluence.Decides
      (view (eq.sweep shape (pre ++ [b])
        (eq.sweptTimes shape order (retreats order (qs ++ [b])) outs)).1 b) v := by
  induction carried generalizing pre post with
  | origin here =>
    rw [view_sweep_snoc]
    exact here _
  | @relay qs p b _ edge new ih =>
    -- The decision has to be at `p` when the sweep comes to `b`.
    rw [view_sweep_snoc]
    apply edge.2
    have other : p ≠ b := fun same => new (by simp [same])
    have sofar : Reached eq shape
        (eq.sweptTimes shape order (retreats order (qs ++ [p])) outs) := sweptTimes_reached h _
    rw [retreats_snoc]
    by_cases back : order.idxOf b < order.idxOf p
    · obtain ⟨pre', post', split'⟩ := List.append_of_mem (cover p)
      have whole : pre' ++ [p] ++ post' = order := by simp [split']
      have decided := decides_sweep hg sofar (ih split') post'
      rw [whole, ← sweptTimes_succ] at decided
      rw [if_pos back]
      exact Confluence.toward_iff.mp (sweep_toward hg (sweptTimes_reached h _) pre p) v decided
    · have before : p ∈ pre := by
        rw [split] at nodup back
        exact mem_before nodup other back
      obtain ⟨pre', post', rfl⟩ := List.append_of_mem before
      have split' : order = pre' ++ p :: (post' ++ b :: post) := by simp [split]
      have decided := decides_sweep hg sofar (ih split') post'
      rw [if_neg back, Nat.add_zero]
      rwa [List.append_assoc, List.singleton_append] at decided

/-- One sweep more than any path goes back, and every decision has arrived. -/
theorem sweptTimes_eq_fixed (hs : shape.Sound) (hg : eq.Grounded) (nodup : order.Nodup)
    (cover : ∀ b, b ∈ order) {depth : Nat}
    (bound : ∀ qs : List (Fin n), qs.IsChain (fun p b => p ∈ shape.preds.get b) → qs.Nodup →
      retreats order qs ≤ depth) :
    eq.sweptTimes shape order (depth + 1) (eq.start shape) = eq.fixed shape := by
  have reached (k : Nat) : Reached eq shape (eq.sweptTimes shape order k (eq.start shape)) :=
    sweptTimes_reached .start k
  apply eq_of_view
  intro b
  apply Confluence.Toward.antisymm (c := eq.confluence)
  · exact reached_extremal hs hg (reached _) (solution_of_settled hs (fixed_settled hs hg)) b
  · rw [Confluence.toward_iff]
    intro v decided
    obtain ⟨qs, carried⟩ := carried_of_reached hs hg (fixed_reached hg) decided
    have enough := bound _ carried.isChain carried.nodup
    obtain ⟨pre, post, split⟩ := List.append_of_mem (cover b)
    have whole : pre ++ [b] ++ post = order := by simp [split]
    have arrived := decides_sweep hg (reached _)
      (decides_of_carried hg nodup cover .start carried split) post
    rw [whole, ← sweptTimes_succ] at arrived
    exact Confluence.toward_iff.mp
      (sweptTimes_toward hg .start (Nat.succ_le_succ enough) b) v arrived

theorem quiet_of_settled (h : ∀ b, eq.Settled shape outs b) (order : List (Fin n)) :
    eq.Quiet shape order outs := by
  induction order with
  | nil => rfl
  | cons b order ih => simpa [Quiet, sweep, refresh_settled (h b), Visit.anyChanged] using ih

/-- Sweeping stops at the first sweep that changes nothing. -/
theorem length_sweeps_le {k : Nat}
    (quiet : eq.Quiet shape order (eq.sweptTimes shape order k outs)) (bound : Nat) :
    (eq.sweepUpTo shape order bound outs).sweeps.length ≤ k + 1 := by
  induction bound generalizing k outs with
  | zero => exact Nat.zero_le _
  | succ bound ih =>
    by_cases still : eq.Quiet shape order outs
    · rw [sweepUpTo_quiet bound still, List.length_singleton]
      omega
    · cases k with
      | zero => exact absurd quiet still
      | succ k =>
        have rest : (eq.sweepUpTo shape order bound (eq.sweep shape order outs).1).sweeps.length ≤
            k + 1 := ih quiet
        rw [sweepUpTo_again bound still, List.length_cons]
        omega

theorem length_sweeps_pos (bound : Nat) :
    1 ≤ (eq.sweepUpTo shape order (bound + 1) outs).sweeps.length := by
  by_cases still : eq.Quiet shape order outs
  · rw [sweepUpTo_quiet bound still, List.length_singleton]
  · rw [sweepUpTo_again bound still, List.length_cons]
    omega

end Equations

/-- What sweeping the blocks of a graph reports if it settles within a number of sweeps. -/
structure Run.SettlesWithin {n : Nat} (run : Run n) (blocks most : Nat) : Prop where
  one_le : 1 ≤ run.sweepCount
  sweepCount_le : run.sweepCount ≤ most
  visitCount_eq : run.visitCount = run.sweepCount * blocks
  fellBack_eq : run.fellBack = false

/-- **Sweeping settles within two sweeps more than a path can go back.** -/
theorem Equations.settlesWithin_solveBySweeps {n : Nat} {eq : Equations n} {shape : Shape n}
    {order : List (Fin n)} (hs : shape.Sound) (hg : eq.Grounded) (nodup : order.Nodup)
    (cover : ∀ b, b ∈ order) (full : order.length = n) {depth : Nat}
    (bound : ∀ qs : List (Fin n), qs.IsChain (fun p b => p ∈ shape.preds.get b) → qs.Nodup →
      retreats order qs ≤ depth) :
    (eq.solveBySweeps shape order none).run.SettlesWithin n (depth + 2) := by
  have quiet : eq.Quiet shape order
      (eq.sweptTimes shape order (depth + 1) (eq.start shape)) := by
    rw [sweptTimes_eq_fixed hs hg nodup cover bound]
    exact quiet_of_settled (fixed_settled hs hg) order
  rw [run_of_settled none (settled_without_limit hg shape order)]
  refine ⟨length_sweeps_pos _, length_sweeps_le quiet _, ?_, rfl⟩
  rw [Run.visitCount, length_flatten_sweeps, full]
  rfl

/-! ## The depth of a graph -/

namespace DenseGraph

variable {g : FlowGraph} {d : DenseGraph} {order : List (Fin d.size)}

theorem Describes.block_injective (h : d.Describes g) : Function.Injective d.block := by
  intro i j same
  have at_i := (h.position_iff (d.block i) i).mpr rfl
  have at_j := (h.position_iff (d.block i) j).mpr same.symm
  exact Option.some.inj (at_i.symm.trans at_j)

theorem nodup_order (h : ofFlowGraph g = .ok d) (ho : d.rpo = .ok order) : order.Nodup := by
  obtain ⟨wf, -⟩ := ofFlowGraph_cases h
  have nodup := (order_perm h ho).nodup_iff.mpr wf.nodup
  rw [← (describes_of_accepted h).order_eq order ho] at nodup
  exact nodup.of_map _

theorem isPath_map (h : ofFlowGraph g = .ok d) {qs : List (Fin d.size)}
    (chain : qs.IsChain fun p b => p ∈ d.shape.preds.get b) : g.IsPath (qs.map d.block) := by
  have describes := describes_of_accepted h
  constructor
  · intro q hq
    obtain ⟨i, -, rfl⟩ := List.mem_map.mp hq
    rw [← describes.blocks_eq]
    exact List.getElem_mem _
  · apply (List.isChain_map _).mpr
    apply chain.imp
    intro p b edge
    rw [← describes.succs_eq p]
    exact List.mem_map_of_mem (((sound_of_accepted h).agree p b).mp edge)

/-- A path over positions goes back no more than the graph is deep. -/
theorem retreats_le_depth (h : ofFlowGraph g = .ok d) (ho : d.rpo = .ok order) {depth : Nat}
    (deep : g.IsDepth depth) {qs : List (Fin d.size)}
    (chain : qs.IsChain fun p b => p ∈ d.shape.preds.get b) (nodup : qs.Nodup) :
    retreats order qs ≤ depth := by
  have describes := describes_of_accepted h
  have inj := describes.block_injective
  apply deep.2
  refine ⟨qs.map d.block, isPath_map h chain, nodup.map inj, ?_⟩
  rw [← describes.order_eq order ho]
  exact retreats_map inj qs

end DenseGraph

/-- Without cycles the order of a built graph is never gone back in. -/
theorem GraphBuilder.isDepth_zero {c : GraphBuilder} (wf : c.toFlowGraph.WellFormed)
    (acyclic : ∀ b, ¬ c.toFlowGraph.OnCycle b) : c.toFlowGraph.IsDepth 0 := by
  obtain ⟨perm, -⟩ := reversePostorder_usable wf
  constructor
  · exact ⟨[], ⟨by simp, .nil⟩, List.nodup_nil, rfl⟩
  · rintro k ⟨qs, path, -, rfl⟩
    apply Nat.le_of_eq
    apply retreats_eq_zero
    apply path.2.imp
    intro u v edge
    have hu := mem_blockIds_of_succ edge
    have live := mem_liveSuccs.mpr ⟨edge, wf.succ_mem hu edge⟩
    exact reversePostorder_topological wf.entry_mem acyclic (perm.mem_iff.mpr hu) live

/-! ## The problems of an analysis -/

variable {g : FlowGraph} {r : Registry} {options : Options} {k : BlockEffects}

theorem BlockEffects.settlesWithin_solve (h : compute g r options = .ok k) (wf : r.WellFormed)
    (unlimited : options.sweepLimit = none)
    (usable : g.rpo.Perm g.blocks ∧ g.rpo.head? = some g.entry) {depth : Nat}
    (deep : g.IsDepth depth) :
    ∃ sol, k.solve .reversePostorder = .ok sol ∧
      ∀ p, (sol.fixpoint p).run.SettlesWithin g.blocks.length (depth + 2) := by
  have accepted := accepted_of_compute h
  have sound := DenseGraph.sound_of_accepted accepted
  obtain ⟨order, ho⟩ : ∃ order, k.graph.rpo = .ok order := by
    by_contra unusable
    exact (solve_reversePostorder_fails_iff h).mp (solve_reversePostorder_fails.mpr unusable) usable
  refine ⟨_, solve_of_usable ho, ?_⟩
  intro p
  rw [fixpoint_solvedBy, options_of_compute h, unlimited,
    ← DenseGraph.blocks_ofFlowGraph accepted]
  exact Equations.settlesWithin_solveBySweeps sound (grounded_equations h wf p)
    (DenseGraph.nodup_order accepted ho) (DenseGraph.mem_order accepted ho)
    (DenseGraph.length_order accepted ho)
    fun qs chain nodup => DenseGraph.retreats_le_depth accepted ho deep chain nodup

/-- **The depth of a graph bounds the sweeps.** For every graph and registry that pass the checks,
with an order that lists the blocks in any way with the entry first, sweeping without a limit
solves each of the four problems in at least one sweep and at most two more than the most that a
path without repeated blocks goes back in the order. Every sweep visits each block, and the
worklist is never called. A built graph without cycles is solved in two sweeps at most. -/
theorem sweeps_bounded_by_depth (edits : List RegistryEdit) {dense : DenseGraph}
    (accepted : DenseGraph.ofFlowGraph g = .ok dense) {inv : Inventory}
    (hinv : Inventory.ofFlowGraph g (Registry.initial.run edits) = .ok inv)
    (unlimited : options.sweepLimit = none) :
    (g.rpo.Perm g.blocks ∧ g.rpo.head? = some g.entry →
      ∃ depth, g.IsDepth depth ∧ ∃ sol,
        analyse g (Registry.initial.run edits) options .reversePostorder = .ok sol ∧
        ∀ p, (sol.fixpoint p).run.SettlesWithin g.blocks.length (depth + 2)) ∧
    (∀ c : GraphBuilder, g = c.toFlowGraph → (∀ b, ¬ g.OnCycle b) → ∃ sol,
      analyse g (Registry.initial.run edits) options .reversePostorder = .ok sol ∧
      ∀ p, (sol.fixpoint p).run.SettlesWithin g.blocks.length 2) := by
  have wf := Registry.wellFormed_run edits
  obtain ⟨graph_wf, -⟩ := DenseGraph.ofFlowGraph_cases accepted
  obtain ⟨k, computed⟩ := BlockEffects.compute_ok accepted hinv options
  constructor
  · intro usable
    obtain ⟨depth, deep⟩ := g.exists_isDepth
    obtain ⟨sol, solved, settles⟩ :=
      BlockEffects.settlesWithin_solve computed wf unlimited usable deep
    exact ⟨depth, deep, sol, analyse_eq_ok.mpr ⟨k, computed, solved⟩, settles⟩
  · rintro c rfl acyclic
    obtain ⟨sol, solved, settles⟩ := BlockEffects.settlesWithin_solve computed wf unlimited
      (GraphBuilder.reversePostorder_usable graph_wf)
      (GraphBuilder.isDepth_zero graph_wf acyclic)
    exact ⟨sol, analyse_eq_ok.mpr ⟨k, computed, solved⟩, settles⟩

theorem tangle_isDepth : tangle.IsDepth 1 := by
  have paths : ∀ l ∈ tangle.blocks.sublists, ∀ qs ∈ l.permutations',
      qs.IsChain (fun p q => q ∈ tangle.succs p) → retreats tangle.rpo qs ≤ 1 := by
    decide
  constructor
  · exact ⟨[⟨9⟩, ⟨4⟩], ⟨by decide, by decide⟩, by decide, by decide⟩
  · rintro k ⟨qs, path, nodup, rfl⟩
    obtain ⟨l, perm, sub⟩ := nodup.subperm path.1
    exact paths l (List.mem_sublists.mpr sub) qs (List.mem_permutations'.mpr perm.symm) path.2

/-- On a path without repeated blocks one step at most goes back here, and three sweeps are made.
The fork takes two. -/
theorem tangle_swept :
    (∃ sol, analyse tangle (Registry.initial.run []) {} .reversePostorder = .ok sol ∧
      tangle.IsDepth 1 ∧ (sol.fixpoint .liveIn).run.SettlesWithin 3 3 ∧
      (sol.fixpoint .liveIn).run.sweepCount = 3) ∧
    (∀ b, ¬ fork.toFlowGraph.OnCycle b) ∧
    ∃ sol, analyse fork.toFlowGraph (Registry.initial.run []) {} .reversePostorder = .ok sol ∧
      (sol.fixpoint .liveIn).run.SettlesWithin 4 2 := by
  have count : (analyse tangle (Registry.initial.run []) {} .reversePostorder).toOption.map
      (fun sol => (sol.fixpoint .liveIn).run.sweepCount) = some 3 := by
    decide +kernel
  have collected : ∃ inv, Inventory.ofFlowGraph tangle (Registry.initial.run []) = .ok inv :=
    ⟨_, rfl⟩
  have forkAccepted : ∃ dense, DenseGraph.ofFlowGraph fork.toFlowGraph = .ok dense := ⟨_, rfl⟩
  have forkCollected : ∃ inv,
      Inventory.ofFlowGraph fork.toFlowGraph (Registry.initial.run []) = .ok inv := ⟨_, rfl⟩
  obtain ⟨inv, collected⟩ := collected
  obtain ⟨forkDense, forkAccepted⟩ := forkAccepted
  obtain ⟨forkInv, forkCollected⟩ := forkCollected
  have unlimited : ({} : Options).sweepLimit = none := rfl
  refine ⟨?_, fork_acyclic, ?_⟩
  · obtain ⟨bounded, -⟩ := sweeps_bounded_by_depth [] tangle_accepted collected unlimited
    obtain ⟨depth, deep, sol, solved, settles⟩ := bounded ⟨by decide, by decide⟩
    obtain rfl : depth = 1 := deep.unique tangle_isDepth
    obtain ⟨sol', solved', count⟩ := exists_solution count
    obtain rfl : sol' = sol := Except.ok.inj (solved'.symm.trans solved)
    exact ⟨sol', solved, deep, settles .liveIn, count⟩
  · obtain ⟨-, acyclic⟩ := sweeps_bounded_by_depth [] forkAccepted forkCollected unlimited
    obtain ⟨sol, solved, settles⟩ := acyclic fork rfl fork_acyclic
    exact ⟨sol, solved, settles .liveIn⟩

end MemFlow

import Mathlib.Algebra.BigOperators.Fin
import Mathlib.Algebra.Order.BigOperators.Group.Finset
import MemFlow.Equations
import MemFlow.Proofs.SetOrder
import MemFlow.Proofs.Validation

/-!
# Refreshing blocks in any order

Generic results about outs that are brought up to date block by block:

* `Equations.image`: what one round over mathematical sets gives, of which a
  refresh is one block;
* `Equations.Reached`: the outs that some order of refreshes leads to;
* `reached_rising`: every refresh moves an out in one direction only, up for a
  union and down for an intersection;
* `reached_toward`: no order of refreshes moves past a family of sets that is
  closed under a round;
* `room_refresh`: a refresh that changes an out uses up room, of which there is
  at most `Equations.capacity`.
-/

namespace MemFlow

-- Statements read entries with `get`; what is proved about vectors is about `getElem`.
theorem get_eq {α : Type} {n : Nat} (xs : Vector α n) (i : Fin n) :
    xs.get i = getElem xs i.val i.isLt := rfl

/-- Going from `A` to `B` is going the way outs move. -/
def Confluence.Toward : Confluence → Set Nat → Set Nat → Prop
  | .union, A, B => A ⊆ B
  | .inter, A, B => B ⊆ A

namespace Confluence

theorem toward_refl (c : Confluence) (A : Set Nat) : c.Toward A A := by
  cases c <;> exact fun _ h => h

theorem Toward.trans {c : Confluence} {A B C : Set Nat} (h : c.Toward A B) (h' : c.Toward B C) :
    c.Toward A C := by
  cases c
  · exact fun v hv => h' (h hv)
  · exact fun v hv => h (h' hv)

theorem Toward.antisymm {c : Confluence} {A B : Set Nat} (h : c.Toward A B) (h' : c.Toward B A) :
    A = B := by
  cases c with
  | union => exact Set.Subset.antisymm h h'
  | inter => exact Set.Subset.antisymm h' h

end Confluence

namespace Equations

variable {n : Nat} {eq : Equations n} {shape : Shape n}

/-! ## One round over mathematical sets -/

/-- What comes into a block when the outs are the sets `X`. -/
def joined (eq : Equations n) (shape : Shape n) (X : Fin n → Set Nat) (b : Fin n) : Set Nat :=
  match eq.confluence with
  | .union => {v | ∃ p ∈ shape.preds.get b, v ∈ X p}
  | .inter => {v | b ≠ shape.entry ∧ shape.preds.get b ≠ [] ∧ ∀ p ∈ shape.preds.get b, v ∈ X p}

/-- What leaves a block when the outs are the sets `X`. -/
def image (eq : Equations n) (shape : Shape n) (X : Fin n → Set Nat) (b : Fin n) : Set Nat :=
  (eq.gen.get b).members ∪ (eq.joined shape X b \ (eq.kill.get b).members)

def view (outs : Vector IdSet n) (b : Fin n) : Set Nat := (outs.get b).members

theorem eq_of_view {outs outs' : Vector IdSet n} (h : ∀ b, view outs b = view outs' b) :
    outs = outs' := by
  apply Vector.ext
  intro i hi
  apply IdSet.ext_mem
  intro v
  exact Set.ext_iff.mp (h ⟨i, hi⟩) v

theorem members_incoming (b : Fin n) (outs : Vector IdSet n) :
    (eq.incoming shape b outs).members = eq.joined shape (view outs) b := by
  ext v
  simp only [IdSet.mem_members_iff, incoming, joined]
  cases eq.confluence with
  | union => simp [IdSet.mem_foldl_union, view, get_eq]
  | inter =>
    simp only [Fin.getElem_fin, ← get_eq]
    cases hp : shape.preds.get b with
    | nil => simp
    | cons p ps =>
      by_cases hb : b = shape.entry
      · simp [hb]
      · simp [hb, IdSet.mem_foldl_inter, view]

theorem members_transfer (b : Fin n) (s : IdSet) :
    (eq.transfer b s).members = (eq.gen.get b).members ∪ (s.members \ (eq.kill.get b).members) := by
  ext v
  simp only [transfer, IdSet.mem_members_iff, IdSet.mem_union, IdSet.mem_sdiff, Set.mem_union,
    Set.mem_sdiff]
  exact or_comm

def renewed (eq : Equations n) (shape : Shape n) (outs : Vector IdSet n) (b : Fin n) : IdSet :=
  eq.transfer b (eq.incoming shape b outs)

theorem members_renewed (b : Fin n) (outs : Vector IdSet n) :
    (eq.renewed shape outs b).members = eq.image shape (view outs) b := by
  rw [renewed, members_transfer, members_incoming, image]

theorem joined_toward (shape : Shape n) {X Y : Fin n → Set Nat}
    (h : ∀ p, eq.confluence.Toward (X p) (Y p)) (b : Fin n) :
    eq.confluence.Toward (eq.joined shape X b) (eq.joined shape Y b) := by
  unfold joined
  cases hc : eq.confluence with
  | union =>
    simp only [hc, Confluence.Toward] at h ⊢
    rintro v ⟨p, hp, hv⟩
    exact ⟨p, hp, h p hv⟩
  | inter =>
    simp only [hc, Confluence.Toward] at h ⊢
    rintro v ⟨hb, hne, hv⟩
    exact ⟨hb, hne, fun p hp => h p (hv p hp)⟩

theorem joined_congr {X Y : Fin n → Set Nat} {b : Fin n}
    (h : ∀ p ∈ shape.preds.get b, X p = Y p) : eq.joined shape X b = eq.joined shape Y b := by
  ext v
  unfold joined
  cases eq.confluence with
  | union => exact exists_congr fun p => and_congr_right fun hp => by rw [h p hp]
  | inter =>
    refine and_congr_right fun _ => and_congr_right fun _ => ?_
    exact forall_congr' fun p => imp_congr_right fun hp => by rw [h p hp]

theorem image_toward (shape : Shape n) {X Y : Fin n → Set Nat}
    (h : ∀ p, eq.confluence.Toward (X p) (Y p)) (b : Fin n) :
    eq.confluence.Toward (eq.image shape X b) (eq.image shape Y b) := by
  have hj := joined_toward shape h b
  unfold image
  cases hc : eq.confluence <;> simp only [hc, Confluence.Toward] at hj ⊢ <;>
    exact Set.union_subset_union_right _ (Set.sdiff_subset_sdiff_left hj)

theorem joined_subset {X : Fin n → Set Nat} {S : Set Nat} (h : ∀ p, X p ⊆ S) (b : Fin n) :
    eq.joined shape X b ⊆ S := by
  unfold joined
  cases eq.confluence with
  | union =>
    rintro v ⟨p, -, hv⟩
    exact h p hv
  | inter =>
    rintro v ⟨-, hne, hv⟩
    obtain ⟨p, ps, hp⟩ := List.exists_cons_of_ne_nil hne
    have hmem : p ∈ shape.preds.get b := by rw [hp]; exact List.mem_cons_self
    exact h p (hv p hmem)

theorem image_subset {X : Fin n → Set Nat} {S : Set Nat} (h : ∀ p, X p ⊆ S) {b : Fin n}
    (hg : (eq.gen.get b).members ⊆ S) : eq.image shape X b ⊆ S :=
  Set.union_subset hg (Set.sdiff_subset.trans (joined_subset h b))

theorem image_entry (hc : eq.confluence = .inter) (X : Fin n → Set Nat) :
    eq.image shape X shape.entry = (eq.gen.get shape.entry).members := by
  ext v
  simp [image, joined, hc]

/-! ## What a refresh does -/

theorem refresh_cases (eq : Equations n) (shape : Shape n) (outs : Vector IdSet n) (b : Fin n) :
    (eq.renewed shape outs b = outs.get b ∧ eq.refresh shape b outs = (outs, false)) ∨
    (eq.renewed shape outs b ≠ outs.get b ∧
      eq.refresh shape b outs = (outs.set b (eq.renewed shape outs b) b.isLt, true)) := by
  unfold refresh
  by_cases h : eq.renewed shape outs b = outs.get b
  · exact Or.inl ⟨h, if_pos h⟩
  · exact Or.inr ⟨h, if_neg h⟩

theorem refresh_eq_set (outs : Vector IdSet n) (b : Fin n) :
    (eq.refresh shape b outs).1 = outs.set b (eq.renewed shape outs b) b.isLt := by
  rcases refresh_cases eq shape outs b with ⟨h, hr⟩ | ⟨-, hr⟩
  · rw [hr, h]
    exact Vector.ext fun i hi => by simp +contextual [get_eq]
  · rw [hr]

theorem get_refresh (outs : Vector IdSet n) (b c : Fin n) :
    (eq.refresh shape b outs).1.get c = if c = b then eq.renewed shape outs b else outs.get c := by
  rw [refresh_eq_set, get_eq]
  by_cases h : c = b
  · subst h; simp
  · have hne : (b : Nat) ≠ c := fun he => h (Fin.ext he.symm)
    simp [h, hne, get_eq]

theorem view_refresh (outs : Vector IdSet n) (b c : Fin n) :
    view (eq.refresh shape b outs).1 c =
      if c = b then eq.image shape (view outs) b else view outs c := by
  rw [view, get_refresh]
  split
  · exact members_renewed b outs
  · rfl

/-- The block's equation holds. -/
def Settled (eq : Equations n) (shape : Shape n) (outs : Vector IdSet n) (b : Fin n) : Prop :=
  eq.renewed shape outs b = outs.get b

theorem refresh_false_iff {outs : Vector IdSet n} {b : Fin n} :
    (eq.refresh shape b outs).2 = false ↔ eq.Settled shape outs b := by
  rcases refresh_cases eq shape outs b with ⟨h, hr⟩ | ⟨h, hr⟩
  · exact iff_of_true (by rw [hr]) h
  · exact iff_of_false (by simp [hr]) h

theorem refresh_settled {outs : Vector IdSet n} {b : Fin n} (h : eq.Settled shape outs b) :
    eq.refresh shape b outs = (outs, false) := if_pos h

/-! ## Every order of refreshes -/

/-- The outs that some order of refreshes leads to from the start. -/
inductive Reached (eq : Equations n) (shape : Shape n) : Vector IdSet n → Prop
  | start : Reached eq shape (eq.start shape)
  | refresh {outs : Vector IdSet n} (b : Fin n) :
      Reached eq shape outs → Reached eq shape (eq.refresh shape b outs).1

/-- An intersection starts from everything that is generated. -/
def Grounded (eq : Equations n) : Prop :=
  eq.confluence = .inter → ∀ b : Fin n, eq.gen.get b ⊆ eq.domain

theorem view_start_union (hc : eq.confluence = .union) (b : Fin n) :
    view (eq.start shape) b = ∅ := by
  ext v
  simp [view, start, hc, get_eq]

theorem view_start_inter (hc : eq.confluence = .inter) (b : Fin n) :
    view (eq.start shape) b =
      if b = shape.entry then (eq.gen.get b).members else eq.domain.members := by
  ext v
  by_cases hb : b = shape.entry <;> simp [view, start, hc, hb, transfer, get_eq]

theorem start_subset_domain (hg : eq.Grounded) (hc : eq.confluence = .inter) (b : Fin n) :
    view (eq.start shape) b ⊆ eq.domain.members := by
  rw [view_start_inter hc]
  split
  · exact hg hc b
  · exact fun _ h => h

theorem start_rising (hg : eq.Grounded) (b : Fin n) :
    eq.confluence.Toward (view (eq.start shape) b) (eq.image shape (view (eq.start shape)) b) := by
  cases hc : eq.confluence with
  | union =>
    rw [view_start_union hc]
    exact Set.empty_subset _
  | inter =>
    simp only [Confluence.Toward]
    rw [view_start_inter hc b]
    split
    · rename_i hb
      rw [hb, image_entry hc]
    · exact image_subset (start_subset_domain hg hc) (hg hc b)

theorem refresh_toward {outs : Vector IdSet n}
    (h : ∀ b, eq.confluence.Toward (view outs b) (eq.image shape (view outs) b)) (b c : Fin n) :
    eq.confluence.Toward (view outs c) (view (eq.refresh shape b outs).1 c) := by
  rw [view_refresh]
  split
  · rename_i hcb
    exact hcb ▸ h c
  · exact Confluence.toward_refl _ _

/-- **Refreshes only move outs one way.** In whatever order blocks were
refreshed, another refresh of any block moves its out up for a union and down
for an intersection. -/
theorem reached_rising (hg : eq.Grounded) {outs : Vector IdSet n} (h : Reached eq shape outs)
    (b : Fin n) : eq.confluence.Toward (view outs b) (eq.image shape (view outs) b) := by
  induction h generalizing b with
  | start => exact start_rising hg b
  | @refresh outs a _ ih =>
    -- The refresh moved every out the right way, and a round is monotone.
    have later := image_toward shape (refresh_toward ih a) b
    rw [view_refresh]
    split
    · rename_i hba
      exact hba ▸ later
    · exact (ih b).trans later

theorem mem_ids {v : Nat} : v ∈ eq.ids ↔ v ∈ eq.domain ∨ ∃ b : Fin n, v ∈ eq.gen.get b := by
  rw [ids, IdSet.mem_foldl_union (f := fun s => s)]
  simp only [Vector.mem_toList_iff, Vector.mem_iff_getElem, Fin.exists_iff, get_eq]
  grind

theorem gen_subset_ids (b : Fin n) : (eq.gen.get b).members ⊆ eq.ids.members :=
  fun _ hv => mem_ids.mpr (Or.inr ⟨b, hv⟩)

theorem reached_subset_ids {outs : Vector IdSet n} (h : Reached eq shape outs) (b : Fin n) :
    view outs b ⊆ eq.ids.members := by
  induction h generalizing b with
  | start =>
    cases hc : eq.confluence with
    | union =>
      rw [view_start_union hc]
      exact Set.empty_subset _
    | inter =>
      rw [view_start_inter hc]
      split
      · exact gen_subset_ids b
      · exact fun _ hv => mem_ids.mpr (Or.inl hv)
  | @refresh outs a _ ih =>
    rw [view_refresh]
    split
    · exact image_subset ih (gen_subset_ids a)
    · exact ih b

/-- Sets that a round does not take out of an intersection lie within where it
starts: whatever they hold at a block was generated on the way there. -/
theorem subset_start (hs : shape.Sound) (hg : eq.Grounded) (hc : eq.confluence = .inter)
    {X : Fin n → Set Nat} (hX : ∀ b, X b ⊆ eq.image shape X b) (b : Fin n) :
    X b ⊆ view (eq.start shape) b := by
  have entry : X shape.entry ⊆ (eq.gen.get shape.entry).members := image_entry hc X ▸ hX shape.entry
  -- Follow a way from the entry: what `X` holds at a block was generated there or
  -- held at the block before.
  have domain : X b ⊆ eq.domain.members := by
    induction hs.reached b with
    | refl => exact entry.trans (hg hc shape.entry)
    | @tail p b _ hp ih =>
      rintro v hv
      rcases hX b hv with hv | ⟨hv, -⟩
      · exact hg hc b v hv
      · simp only [joined, hc] at hv
        exact ih (hv.2.2 p hp)
  rw [view_start_inter hc]
  split
  · rename_i hb
    exact hb ▸ entry
  · exact domain

/-- **No order of refreshes goes past closed sets.** A union stays within sets
that a round adds nothing to, and an intersection keeps all of sets that a round
takes nothing from. -/
theorem reached_toward (hs : shape.Sound) (hg : eq.Grounded) {outs : Vector IdSet n}
    (h : Reached eq shape outs) {X : Fin n → Set Nat}
    (hX : ∀ b, eq.confluence.Toward (eq.image shape X b) (X b)) (b : Fin n) :
    eq.confluence.Toward (view outs b) (X b) := by
  induction h generalizing b with
  | start =>
    cases hc : eq.confluence with
    | union =>
      rw [view_start_union hc]
      exact Set.empty_subset _
    | inter =>
      simp only [hc, Confluence.Toward] at hX ⊢
      exact subset_start hs hg hc hX b
  | @refresh outs a _ ih =>
    rw [view_refresh]
    split
    · rename_i hba
      exact hba ▸ (image_toward shape ih a).trans (hX a)
    · exact ih b

/-! ## Room for changes -/

/-- How many changes an out has before it. -/
def left (eq : Equations n) (s : IdSet) : Nat :=
  match eq.confluence with
  | .union => eq.ids.size - s.size
  | .inter => s.size

def room (eq : Equations n) (outs : Vector IdSet n) : Nat := ∑ b : Fin n, eq.left (outs.get b)

theorem left_lt {s t : IdSet} (h : eq.confluence.Toward s.members t.members) (hne : t ≠ s)
    (ht : t ⊆ eq.ids) : eq.left t < eq.left s := by
  unfold left
  cases hc : eq.confluence with
  | union =>
    simp only [hc, Confluence.Toward, IdSet.members_subset] at h ⊢
    have := IdSet.size_lt h hne.symm
    have := IdSet.size_le ht
    omega
  | inter =>
    simp only [hc, Confluence.Toward, IdSet.members_subset] at h ⊢
    exact IdSet.size_lt h hne

theorem room_refresh (hg : eq.Grounded) {outs : Vector IdSet n} (h : Reached eq shape outs)
    {b : Fin n} (hb : (eq.refresh shape b outs).2 = true) :
    eq.room (eq.refresh shape b outs).1 < eq.room outs := by
  have changed : eq.renewed shape outs b ≠ outs.get b := by
    intro he
    rw [refresh_settled he] at hb
    cases hb
  have less : eq.left (eq.renewed shape outs b) < eq.left (outs.get b) := by
    apply left_lt _ changed
    · have := reached_subset_ids (.refresh b h) b
      rw [view_refresh, if_pos rfl, ← members_renewed] at this
      exact this
    · rw [members_renewed]
      exact reached_rising hg h b
  apply Finset.sum_lt_sum
  · intro c _
    rw [get_refresh]
    split
    · rename_i hcb
      exact hcb ▸ less.le
    · exact le_refl _
  · exact ⟨b, Finset.mem_univ b, by rw [get_refresh, if_pos rfl]; exact less⟩

theorem room_le_capacity {outs : Vector IdSet n} (h : Reached eq shape outs) :
    eq.room outs ≤ eq.capacity := by
  have bound : ∀ b ∈ (Finset.univ : Finset (Fin n)), eq.left (outs.get b) ≤ eq.ids.size := by
    intro b _
    unfold left
    cases eq.confluence with
    | union => exact Nat.sub_le _ _
    | inter => exact IdSet.size_le (reached_subset_ids h b)
  have := Finset.sum_le_card_nsmul _ _ _ bound
  simpa [room, capacity] using this

end Equations

end MemFlow

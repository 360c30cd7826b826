import Mathlib.Data.List.TakeWhile
import Mathlib.Tactic.Push

/-! # Queues served in rounds

In a round the first elements of a queue are tried, those that are offered leave it and
those that are refused stay. The queue is never reordered, so that an element waits for the
refused ones before it: it leaves if there are fewer of them than one round tries, and
it stays otherwise.
-/

namespace Queues

variable {α : Type*}

/-- How many elements a round tries, which of them leave for sure, and which stay for sure. -/
structure Round (α : Type*) where
  limit : ℕ
  offered : α → Prop
  refused : α → Prop

structure Round.Keeps (r : Round α) (L : List α) (kept : α → Bool) : Prop where
  leaves : ∀ a ∈ L.take r.limit, r.offered a → kept a = false
  stays : ∀ a ∈ L, kept a = false → a ∈ L.take r.limit ∧ ¬ r.refused a

/-- The queue after some rounds, each with the queue that it finds. -/
inductive Runs : List (List α × Round α) → List α → List α → Prop
  | nil (L : List α) : Runs [] L L
  | cons {r : Round α} {rs : List (List α × Round α)} {L N : List α} {kept : α → Bool} :
      r.Keeps L kept → Runs rs (L.filter kept) N → Runs ((L, r) :: rs) L N

theorem Runs.subset {rs : List (List α × Round α)} {L N : List α} (h : Runs rs L N) : N ⊆ L := by
  induction h with
  | nil L => exact List.Subset.refl L
  | cons _ _ ih => exact List.Subset.trans ih List.filter_sublist.subset

variable [DecidableEq α] {a : α} {L N : List α} {kept : α → Bool}

/-- The elements before `a`. -/
def before (L : List α) (a : α) : List α := L.takeWhile (· ≠ a)

theorem before_append {A B : List α} (h : a ∉ A) : before (A ++ a :: B) a = A := by
  have hA : ∀ b ∈ A, decide (b ≠ a) = true := fun b hb => decide_eq_true fun he => h (he ▸ hb)
  rw [before, List.takeWhile_append_of_pos hA, List.takeWhile_cons_of_neg (by simp),
    List.append_nil]

theorem exists_eq_before_append (ha : a ∈ L) : ∃ B, L = before L a ++ a :: B := by
  obtain ⟨A, B, rfl, hA⟩ := List.eq_append_cons_of_mem ha
  exact ⟨B, by rw [before_append hA]⟩

theorem not_mem_before : a ∉ before L a := fun h => by
  have hne := List.mem_takeWhile_imp h
  exact of_decide_eq_true hne rfl

theorem before_filter (ha : a ∈ L) (hk : kept a = true) :
    before (L.filter kept) a = (before L a).filter kept := by
  obtain ⟨B, hL⟩ := exists_eq_before_append ha
  have hnot : a ∉ (before L a).filter kept := fun h => not_mem_before (List.mem_filter.mp h).1
  conv_lhs => rw [hL]
  rw [List.filter_append, List.filter_cons_of_pos hk, before_append hnot]

theorem take_eq_of_not_mem {m : ℕ} (ha : a ∈ L) (h : a ∉ L.take m) :
    L.take m = (before L a).take m ∧ m ≤ (before L a).length := by
  obtain ⟨B, hL⟩ := exists_eq_before_append ha
  have hm : m ≤ (before L a).length := by
    by_contra hlt
    apply h
    rw [hL, List.take_append, List.mem_append]
    right
    rw [show m - (before L a).length = m - (before L a).length - 1 + 1 by omega,
      List.take_succ_cons]
    exact List.mem_cons_self
  refine ⟨?_, hm⟩
  conv_lhs => rw [hL]
  rw [List.take_append_of_le_length hm]

theorem not_mem_take {m : ℕ} (ha : a ∈ L) (hm : m ≤ (before L a).length) :
    a ∉ L.take m := by
  obtain ⟨B, hL⟩ := exists_eq_before_append ha
  rw [hL, List.take_append_of_le_length hm]
  exact fun h => not_mem_before (List.mem_of_mem_take h)

section Starvation

open scoped Classical in
/-- How many elements before `a` have the property. -/
noncomputable def countBefore (L : List α) (a : α) (p : α → Prop) : ℕ := (before L a).countP (p ·)

variable {r : Round α} {rs : List (List α × Round α)} {p q : α → Prop}

theorem countBefore_le_length : countBefore L a p ≤ (before L a).length := List.countP_le_length

theorem countBefore_le_filter (ha : a ∈ L) (hk : kept a = true)
    (h : ∀ b ∈ L, p b → kept b = true ∧ q b) :
    countBefore L a p ≤ countBefore (L.filter kept) a q := by
  classical
  rw [countBefore, countBefore, before_filter ha hk, List.countP_filter]
  apply List.countP_mono_left
  intro b hb hp
  have hbL : b ∈ L := (List.takeWhile_prefix _).subset hb
  obtain ⟨hkept, hq⟩ := h b hbL (of_decide_eq_true hp)
  simp [hkept, hq]

theorem le_countBefore {m : ℕ} (hm : m ≤ (before L a).length)
    (hall : ∀ b ∈ (before L a).take m, p b) : m ≤ countBefore L a p := by
  classical
  have hcount : ((before L a).take m).countP (p ·) = ((before L a).take m).length :=
    List.countP_eq_length.mpr fun b hb => decide_eq_true (hall b hb)
  rw [List.length_take, min_eq_left hm] at hcount
  exact hcount.symm.le.trans (List.take_sublist m _).countP_le

/-- In a round that tries more elements than are not offered before `a`, something leaves. -/
theorem Round.Keeps.length_lt (h : r.Keeps L kept) (ha : a ∈ L) (hk : kept a = true)
    (hoffered : r.offered a) (hfew : countBefore L a (fun b => ¬ r.offered b) < r.limit) :
    (L.filter kept).length < L.length := by
  have hnot : a ∉ L.take r.limit := fun hm => by
    rw [h.leaves a hm hoffered] at hk
    cases hk
  obtain ⟨htake, hlen⟩ := take_eq_of_not_mem ha hnot
  -- Otherwise as many elements as the round tries are not offered before `a`.
  obtain ⟨b, hb, hbo⟩ : ∃ b ∈ L.take r.limit, r.offered b := by
    by_contra hnone
    push Not at hnone
    rw [htake] at hnone
    exact absurd hfew (not_lt.mpr (le_countBefore hlen hnone))
  apply lt_of_le_of_ne (List.length_filter_le kept L)
  intro he
  have hkb := List.length_filter_eq_length_iff.mp he b (List.mem_of_mem_take hb)
  rw [h.leaves b hb hbo] at hkb
  cases hkb

/-- An element that is offered in every round leaves within as many rounds as the queue is long, if
each round tries more elements than it finds before it and does not offer. -/
theorem Runs.leaves (h : Runs rs L N) (hlen : L.length ≤ rs.length)
    (hoffered : ∀ x ∈ rs, x.2.offered a)
    (hfew : ∀ x ∈ rs, countBefore x.1 a (fun b => ¬ x.2.offered b) < x.2.limit) : a ∉ N := by
  induction h with
  | nil L =>
    rw [List.length_eq_zero_iff.mp (Nat.le_zero.mp hlen)]
    exact List.not_mem_nil
  | @cons r rs L N kept hkeeps hrun ih =>
    obtain ⟨hr, hrs⟩ := List.forall_mem_cons.mp hoffered
    obtain ⟨hfirst, hrest⟩ := List.forall_mem_cons.mp hfew
    by_cases ha : a ∈ L.filter kept
    · obtain ⟨haL, hk⟩ := List.mem_filter.mp ha
      have hlt := hkeeps.length_lt haL hk hr hfirst
      rw [List.length_cons] at hlen
      exact ih (by omega) hrs hrest
    · exact fun hN => ha (hrun.subset hN)

/-- An element that is offered in every round stays exactly if each round finds as many elements
before it as it tries. -/
theorem Runs.mem_iff (h : Runs rs L N) (ha : a ∈ L) (hoffered : ∀ x ∈ rs, x.2.offered a) :
    a ∈ N ↔ ∀ x ∈ rs, x.2.limit ≤ (before x.1 a).length := by
  induction h with
  | nil L => exact iff_of_true ha fun _ h => absurd h List.not_mem_nil
  | @cons r rs L N kept hkeeps hrun ih =>
    obtain ⟨hr, hrs⟩ := List.forall_mem_cons.mp hoffered
    rw [List.forall_mem_cons]
    by_cases hk : kept a = true
    · rw [ih (List.mem_filter.mpr ⟨ha, hk⟩) hrs]
      refine ⟨fun hrest => ⟨?_, hrest⟩, And.right⟩
      by_contra hlt
      have htried : a ∈ L.take r.limit := by
        by_contra hnot
        exact hlt (take_eq_of_not_mem ha hnot).2
      rw [hkeeps.leaves a htried hr] at hk
      cases hk
    · refine iff_of_false (fun hN => hk (List.mem_filter.mp (hrun.subset hN)).2) ?_
      rintro ⟨hfirst, -⟩
      exact not_mem_take ha hfirst (hkeeps.stays a ha (eq_false_of_ne_true hk)).1

theorem Runs.stays (h : Runs rs L N) (ha : a ∈ L)
    (hmany : ∀ x ∈ rs, x.2.limit ≤ countBefore L a fun b => ∀ y ∈ rs, y.2.refused b) : a ∈ N := by
  induction h with
  | nil L => exact ha
  | @cons r rs L N kept hkeeps hrun ih =>
    have hlimit : r.limit ≤ (before L a).length :=
      (hmany _ List.mem_cons_self).trans countBefore_le_length
    have hk : kept a = true := by
      by_contra hnot
      exact not_mem_take ha hlimit (hkeeps.stays a ha (eq_false_of_ne_true hnot)).1
    apply ih (List.mem_filter.mpr ⟨ha, hk⟩)
    intro x hx
    apply (hmany x (List.mem_cons_of_mem _ hx)).trans
    apply countBefore_le_filter ha hk
    intro b hb hall
    obtain ⟨hr, hrs⟩ := List.forall_mem_cons.mp hall
    refine ⟨?_, hrs⟩
    by_contra hnot
    exact (hkeeps.stays b hb (eq_false_of_ne_true hnot)).2 hr

end Starvation

end Queues

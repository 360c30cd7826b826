import HistoryAnchor.Queues.Rounds
import Mathlib.Algebra.BigOperators.Group.List.Basic
import Mathlib.Algebra.Order.Ring.Int

/-! # Queues served greedily from the front

A service takes the longest prefix of a queue that fits in some room. Between two
services elements may leave the queue anywhere and join it at its end. An element waits
for those before it only, so that it is served in time if they and it fit, and an
element at the front that does not fit holds up all others.
-/

namespace Queues

variable {α : Type*} {w : α → ℕ} {room : ℤ} {x a : α} {xs ys L N : List α}

def fitting (w : α → ℕ) : ℤ → List α → List α
  | _, [] => []
  | room, x :: xs => if (w x : ℤ) ≤ room then x :: fitting w (room - w x) xs else []

theorem prefix_fitting (w : α → ℕ) (room : ℤ) (xs : List α) : fitting w room xs <+: xs := by
  induction xs generalizing room with
  | nil => exact List.prefix_rfl
  | cons x xs ih =>
    rw [fitting]
    split_ifs with h
    · exact (List.cons_prefix_cons).mpr ⟨rfl, ih _⟩
    · exact List.nil_prefix

theorem sum_fitting_le (hroom : 0 ≤ room) (xs : List α) :
    (((fitting w room xs).map w).sum : ℤ) ≤ room := by
  induction xs generalizing room with
  | nil => exact hroom
  | cons x xs ih =>
    rw [fitting]
    split_ifs with h
    · have hrest := ih (sub_nonneg.mpr h)
      rw [List.map_cons, List.sum_cons, Nat.cast_add]
      omega
    · exact hroom

theorem length_le_fitting (hys : ys <+: xs) (hsum : ((ys.map w).sum : ℤ) ≤ room) :
    ys.length ≤ (fitting w room xs).length := by
  induction ys generalizing xs room with
  | nil => exact Nat.zero_le _
  | cons y ys ih =>
    obtain ⟨zs, rfl⟩ := hys
    rw [List.map_cons, List.sum_cons, Nat.cast_add] at hsum
    have hroom : ((ys.map w).sum : ℤ) ≤ room - w y := by omega
    have hrest := ih (List.prefix_append ys zs) hroom
    rw [List.cons_append, fitting, if_pos (by omega), List.length_cons, List.length_cons]
    omega

theorem fitting_cons_eq_nil_iff : fitting w room (x :: xs) = [] ↔ room < w x := by
  rw [fitting]
  split_ifs with h
  · exact iff_of_false id (not_lt.mpr h)
  · exact iff_of_true rfl (not_le.mp h)

theorem le_of_mem_fitting (h : x ∈ fitting w room xs) : (w x : ℤ) ≤ room := by
  induction xs generalizing room with
  | nil => exact absurd h List.not_mem_nil
  | cons y xs ih =>
    rw [fitting] at h
    split_ifs at h with hy
    · rcases List.mem_cons.mp h with rfl | h
      · exact hy
      · have hle := ih h
        have hpos := Int.natCast_nonneg (w y)
        omega
    · exact absurd h List.not_mem_nil

section Waiting

variable {fits : α → Prop} {moves moves' : (α → Bool) → Prop} {n k : ℕ}

/-- A queue after some services and other moves, with the number of services. A service takes
fitting elements from the front, at least one if the first one fits; a move keeps some elements,
and new ones come to the end. -/
inductive Services (fits : α → Prop) (moves : (α → Bool) → Prop) (L : List α) :
    ℕ → List α → Prop
  | start : L.Nodup → Services fits moves L 0 L
  | move {n : ℕ} {M new : List α} {kept : α → Bool} :
      Services fits moves L n M → moves kept → (M.filter kept ++ new).Nodup → (∀ a ∈ L, a ∉ new) →
        Services fits moves L n (M.filter kept ++ new)
  | serve {n k : ℕ} {M : List α} :
      Services fits moves L n M → (∀ x ∈ M.head?, fits x → 1 ≤ k) → (∀ x ∈ M.take k, fits x) →
        Services fits moves L (n + 1) (M.drop k)

theorem Services.nodup (h : Services fits moves L n N) : N.Nodup := by
  induction h with
  | start hn => exact hn
  | move _ _ hn _ _ => exact hn
  | serve _ _ _ ih => exact ih.sublist (List.drop_sublist _ _)

theorem Services.mono (h : Services fits moves L n N) (hmoves : ∀ kept, moves kept → moves' kept) :
    Services fits moves' L n N := by
  induction h with
  | start hn => exact .start hn
  | move _ hkept hn hnew ih => exact .move ih (hmoves _ hkept) hn hnew
  | serve _ hhead hserved ih => exact .serve ih hhead hserved

variable [DecidableEq α]

theorem before_append_of_mem (ha : a ∈ L) (N : List α) : before (L ++ N) a = before L a := by
  obtain ⟨B, hL⟩ := exists_eq_before_append ha
  conv_lhs => rw [hL]
  rw [List.append_assoc, List.cons_append, before_append not_mem_before]

theorem before_eq_take {i : ℕ} (hn : L.Nodup) (hi : L[i]? = some a) : before L a = L.take i := by
  obtain ⟨hlt, he⟩ := List.getElem?_eq_some_iff.mp hi
  have hsplit : L = L.take i ++ a :: L.drop (i + 1) := by
    rw [← he, List.getElem_cons_drop, List.take_append_drop]
  have hnot : a ∉ L.take i := by
    rw [hsplit] at hn
    exact fun h => (List.nodup_append.mp hn).2.2 _ h _ List.mem_cons_self rfl
  conv_lhs => rw [hsplit]
  exact before_append hnot

theorem before_drop (ha : a ∈ L) (hk : k ≤ (before L a).length) :
    a ∈ L.drop k ∧ before (L.drop k) a = (before L a).drop k := by
  obtain ⟨B, hB⟩ := exists_eq_before_append ha
  have hdrop : L.drop k = (before L a).drop k ++ a :: B := by
    conv_lhs => rw [hB]
    rw [List.drop_append_of_le_length hk]
  rw [hdrop]
  exact ⟨List.mem_append_right _ List.mem_cons_self,
    before_append fun h => not_mem_before (List.mem_of_mem_drop h)⟩

theorem le_length_before (hn : L.Nodup) (ha : a ∈ L.drop k) : k ≤ (before L a).length := by
  have hL := List.mem_of_mem_drop ha
  by_contra hlt
  have htake : a ∈ L.take k := by
    by_contra hnot
    exact hlt (take_eq_of_not_mem hL hnot).2
  exact List.disjoint_take_drop hn le_rfl htake ha

/-- Each service shortens what an element of the queue waits for, if all of that and the element
fit. -/
theorem Services.before_le (h : Services fits moves L n N) (ha : a ∈ L) (hfits : fits a)
    (hbefore : ∀ b ∈ before L a, fits b) (hN : a ∈ N) :
    before N a ⊆ before L a ∧ (before N a).length + n ≤ (before L a).length := by
  induction h with
  | start _ => exact ⟨List.Subset.refl _, le_rfl⟩
  | @move n M new kept h _ hn hnew ih =>
    have hM : a ∈ M.filter kept := (List.mem_append.mp hN).resolve_right (hnew a ha)
    obtain ⟨hmem, hkept⟩ := List.mem_filter.mp hM
    obtain ⟨hsub, hlen⟩ := ih hmem
    rw [before_append_of_mem hM, before_filter hmem hkept]
    have hle := List.length_filter_le kept (before M a)
    exact ⟨fun b hb => hsub (List.mem_filter.mp hb).1, by omega⟩
  | @serve n k M h hserve _ ih =>
    have hk := le_length_before h.nodup hN
    have hmem := List.mem_of_mem_drop hN
    obtain ⟨hsub, hlen⟩ := ih hmem
    -- The first element is the one that waits, or it stands before it.
    have hpos : 1 ≤ k := by
      obtain ⟨B, hB⟩ := exists_eq_before_append hmem
      cases hfront : before M a with
      | nil => exact hserve a (by rw [hB, hfront]; rfl) hfits
      | cons b bs =>
        refine hserve b (by rw [hB, hfront]; rfl) (hbefore b (hsub ?_))
        rw [hfront]
        exact List.mem_cons_self
    rw [(before_drop hmem hk).2, List.length_drop]
    exact ⟨fun b hb => hsub (List.mem_of_mem_drop hb), by omega⟩

/-- An element leaves the queue within one service more than there are elements before it, if these
and the element fit. -/
theorem Services.leaves (h : Services fits moves L n N) (ha : a ∈ L) (hfits : fits a)
    (hbefore : ∀ b ∈ before L a, fits b) (hn : (before L a).length < n) : a ∉ N := fun hN => by
  have hlen := (h.before_le ha hfits hbefore hN).2
  omega

/-- Behind an element that does not fit an element stays, if nobody else takes it out. -/
theorem Services.stays (h : Services fits (fun kept => ∀ a, kept a = true) L n N) (ha : a ∈ L)
    (hx : x = a ∨ x ∈ before L a) (hnot : ¬ fits x) : a ∈ N ∧ (x = a ∨ x ∈ before N a) := by
  induction h with
  | start _ => exact ⟨ha, hx⟩
  | @move n M new kept h hkept hn hnew ih =>
    obtain ⟨hmem, hbefore⟩ := ih
    have hall : M.filter kept = M := List.filter_eq_self.mpr fun a _ => hkept a
    rw [hall, before_append_of_mem hmem]
    exact ⟨List.mem_append_left _ hmem, hbefore⟩
  | @serve n k M h _ hserved ih =>
    obtain ⟨hmem, hbefore⟩ := ih
    have hxk : x ∉ M.take k := fun h => hnot (hserved x h)
    have hk : k ≤ (before M a).length := by
      rcases hbefore with rfl | hbefore
      · exact (take_eq_of_not_mem hmem hxk).2
      · by_contra hlt
        apply hxk
        obtain ⟨B, hB⟩ := exists_eq_before_append hmem
        rw [hB, List.take_append]
        apply List.mem_append_left
        rwa [List.take_of_length_le (by omega)]
    obtain ⟨hdrop, he⟩ := before_drop hmem hk
    refine ⟨hdrop, hbefore.imp id fun hbefore => ?_⟩
    rw [he]
    rw [← List.take_append_drop k (before M a), List.mem_append] at hbefore
    refine hbefore.resolve_left fun h => hxk ?_
    obtain ⟨B, hB⟩ := exists_eq_before_append hmem
    rw [hB, List.take_append]
    exact List.mem_append_left _ h

end Waiting

end Queues

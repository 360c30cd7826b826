import Mathlib.Algebra.Order.Group.Defs
import Mathlib.Data.Finset.Card

/-! # Sliding-window logs

A policy admits a call of a key as long as the key has few admitted calls in the
window that ends with it and few other keys have one there. A log that is built
so has few calls of any key in every window of that length.
-/

namespace SlidingLog

/-- How many calls a key may have in a window, its length, and how many keys may have one. -/
structure Policy (τ : Type*) where
  requests : ℕ
  window : τ
  maxKeys : ℕ

variable {κ τ : Type*} [DecidableEq κ] {log : List (κ × τ)} {key : κ} {a b now : τ}

def times (log : List (κ × τ)) (key : κ) : List τ := (log.filter (·.1 = key)).map Prod.snd

theorem mem_times {t : τ} : t ∈ times log key ↔ (key, t) ∈ log := by
  simp only [times, List.mem_map, List.mem_filter, decide_eq_true_eq]
  constructor
  · rintro ⟨⟨k, t⟩, ⟨h, rfl⟩, rfl⟩
    exact h
  · intro h
    exact ⟨(key, t), ⟨h, rfl⟩, rfl⟩

theorem times_append_singleton (k : κ) (t : τ) :
    times (log ++ [(k, t)]) key = times log key ++ if k = key then [t] else [] := by
  rw [times, List.filter_append, List.map_append, List.filter_singleton, ← times]
  by_cases h : k = key
  · rw [if_pos h, decide_eq_true h]
    rfl
  · rw [if_neg h, decide_eq_false h]
    rfl

variable [LinearOrder τ]

/-- The admitted calls of a key in the half-open window `(a, b]`. -/
def within (log : List (κ × τ)) (key : κ) (a b : τ) : List τ :=
  (times log key).filter fun t => a < t ∧ t ≤ b

theorem within_of_le (h : ∀ e ∈ log, e.2 ≤ b) :
    within log key a b = (times log key).filter (a < ·) := by
  apply List.filter_congr
  intro t ht
  rw [decide_eq_decide, and_iff_left (h _ (mem_times.mp ht))]

variable [AddCommGroup τ] {p : Policy τ}

/-- The key has as many admitted calls in the window that ends now as it may have. -/
def Full (p : Policy τ) (log : List (κ × τ)) (key : κ) (now : τ) : Prop :=
  p.requests ≤ (within log key (now - p.window) now).length

/-- As many other keys as there may be have an admitted call in the window that ends now. -/
def Crowded (p : Policy τ) (log : List (κ × τ)) (key : κ) (now : τ) : Prop :=
  ∃ ks : Finset κ, p.maxKeys ≤ ks.card ∧ key ∉ ks ∧
    ∀ k ∈ ks, within log k (now - p.window) now ≠ []

/-- Logs whose calls come in order, each of them admitted. -/
inductive Admitted (p : Policy τ) : List (κ × τ) → Prop
  | nil : Admitted p []
  | snoc {log : List (κ × τ)} {key : κ} {now : τ} : Admitted p log → (∀ e ∈ log, e.2 ≤ now) →
      ¬Full p log key now → Admitted p (log ++ [(key, now)])

/-- In such a log no window of that length holds more calls of a key than it may have. -/
theorem Admitted.length_within_le [IsOrderedAddMonoid τ] (h : Admitted p log) (key : κ) (a : τ) :
    (within log key a (a + p.window)).length ≤ p.requests := by
  induction h with
  | nil => exact Nat.zero_le _
  | @snoc log k now _ hle hfree ih =>
    rw [within, times_append_singleton, List.filter_append, List.length_append, ← within]
    by_cases hin : k = key ∧ a < now ∧ now ≤ a + p.window
    · obtain ⟨rfl, ha, hb⟩ := hin
      -- The calls of the window that came before lie in the window that ends now.
      have hsub : (within log k a (a + p.window)).Sublist
          (within log k (now - p.window) now) := by
        rw [within_of_le hle]
        apply List.monotone_filter_right
        intro t ht
        rw [decide_eq_true_iff] at ht ⊢
        exact (sub_le_iff_le_add.mpr hb).trans_lt ht.1
      have hlt := hsub.length_le.trans_lt (not_le.mp hfree)
      have hone : (([now] : List τ).filter fun t => a < t ∧ t ≤ a + p.window).length ≤ 1 :=
        List.length_filter_le _ _
      rw [if_pos rfl]
      omega
    · have hnone : ((if k = key then [now] else []).filter
          fun t => a < t ∧ t ≤ a + p.window) = [] := by
        split_ifs with hk
        · rw [List.filter_eq_nil_iff, List.forall_mem_singleton, decide_eq_true_iff]
          exact fun h => hin ⟨hk, h⟩
        · exact List.filter_nil
      rw [hnone, List.length_nil, Nat.add_zero]
      exact ih

end SlidingLog

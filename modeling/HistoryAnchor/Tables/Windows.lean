import Mathlib.Data.List.Basic

/-! # The first hits of a list

What a search for the first `n` hits goes through, and when a search of a window
finds the hits that a search of the whole list would find.
-/

namespace Tables

variable {α : Type*} {p : α → Bool} {n w : ℕ} {x : α} {xs : List α}

/-- The elements up to the `n`-th one that satisfies `p`. -/
def upTo (p : α → Bool) : ℕ → List α → List α
  | 0, _ => []
  | _ + 1, [] => []
  | n + 1, x :: xs => x :: upTo p (if p x then n else n + 1) xs

@[simp] theorem upTo_zero : upTo p 0 xs = [] := by
  cases xs <;> rfl

theorem upTo_cons_of_hit (h : p x = true) : upTo p (n + 1) (x :: xs) = x :: upTo p n xs := by
  rw [upTo, if_pos h]

theorem upTo_cons_of_miss (h : p x = false) :
    upTo p (n + 1) (x :: xs) = x :: upTo p (n + 1) xs := by
  rw [upTo, h]
  rfl

/-- A window holds the first `n` hits if it holds `n` hits or no hit lies beyond it. -/
theorem take_filter_take_iff : ((xs.take w).filter p).take n = (xs.filter p).take n ↔
    n ≤ ((xs.take w).filter p).length ∨ ∀ x ∈ xs.drop w, p x = false := by
  have hsplit : xs.filter p = (xs.take w).filter p ++ (xs.drop w).filter p := by
    rw [← List.filter_append, List.take_append_drop]
  rw [hsplit]
  constructor
  · intro h
    rw [or_iff_not_imp_left, Nat.not_le]
    intro hlt x hx
    by_contra hhit
    rw [Bool.not_eq_false] at hhit
    have hlength := congrArg List.length h
    have hsome : 0 < ((xs.drop w).filter p).length :=
      List.length_pos_of_mem (List.mem_filter.mpr ⟨hx, hhit⟩)
    simp only [List.length_take, List.length_append] at hlength
    omega
  · rintro (h | h)
    · rw [List.take_append_of_le_length h]
    · have hnone : (xs.drop w).filter p = [] :=
        List.filter_eq_nil_iff.mpr fun x hx => by rw [h x hx]; exact Bool.false_ne_true
      rw [hnone, List.append_nil]

end Tables

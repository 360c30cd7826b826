import HistoryAnchor.Protocol.Canonical
import Mathlib.Algebra.BigOperators.Group.List.Basic
import Mathlib.Algebra.Order.BigOperators.Group.List
import Mathlib.Algebra.Order.Ring.Nat

/-! # The width of encoded values

How many bytes a text takes in UTF-8, and a JSON value in its compact encoding. The
width of a value is a sum over its parts, and the order of members does not matter.
-/

namespace Python

def pointWidth (c : CodePoint) : ℕ :=
  if c.val < 0x80 then 1 else if c.val < 0x800 then 2 else if c.val < 0x10000 then 3 else 4

def width (s : PyStr) : ℕ := (s.map pointWidth).sum

@[simp] theorem width_nil : width [] = 0 := rfl

@[simp] theorem width_cons (c : CodePoint) (s : PyStr) :
    width (c :: s) = pointWidth c + width s := rfl

@[simp] theorem width_append (s t : PyStr) : width (s ++ t) = width s + width t := by
  rw [width, List.map_append, List.sum_append]
  rfl

theorem width_replicate (n : ℕ) (c : CodePoint) : width (List.replicate n c) = n * pointWidth c := by
  induction n with
  | zero => rw [Nat.zero_mul, List.replicate_zero, width_nil]
  | succ n ih => rw [List.replicate_succ, width_cons, ih, Nat.succ_mul, Nat.add_comm]

theorem length_utf8Point {c : CodePoint} {b : Bytes} (h : utf8Point c = some b) :
    b.length = pointWidth c := by
  unfold utf8Point at h
  unfold pointWidth
  simp only at h
  split_ifs at h ⊢
  all_goals
    cases h
    rfl

theorem length_utf8_eq {s : PyStr} {b : Bytes} (h : utf8 s = some b) : b.length = width s := by
  induction s generalizing b with
  | nil =>
    cases h
    rfl
  | cons c s ih =>
    simp only [utf8, Option.bind_eq_bind, Option.bind_eq_some_iff, Option.pure_def,
      Option.some.injEq] at h
    obtain ⟨b₁, hc, b₂, hs, rfl⟩ := h
    rw [List.length_append, length_utf8Point hc, ih hs, width_cons]

theorem pointWidth_le (c : CodePoint) : pointWidth c ≤ 4 := by
  unfold pointWidth
  split_ifs <;> decide

theorem pointWidth_of_lt {c : CodePoint} (h : c.val < 0x80) : pointWidth c = 1 := if_pos h

theorem width_of_lt {s : PyStr} (h : ∀ c ∈ s, c.val < 0x80) : width s = s.length := by
  induction s with
  | nil => rfl
  | cons c s ih =>
    rw [width_cons, pointWidth_of_lt (h c List.mem_cons_self),
      ih fun d hd => h d (List.mem_cons_of_mem c hd), List.length_cons, Nat.add_comm]

theorem width_decimal (n : ℕ) : width (decimal n) = (decimal n).length := by
  apply width_of_lt
  intro c hc
  obtain ⟨-, hle⟩ := Json.digit_of_mem_decimal hc
  omega

theorem width_decimalInt (n : ℤ) : width (decimalInt n) = (decimalInt n).length := by
  cases n with
  | ofNat n => exact width_decimal n
  | negSucc n =>
    show width (ascii "-" ++ decimal (n + 1)) = (ascii "-" ++ decimal (n + 1)).length
    rw [width_append, width_decimal, List.length_append]
    rfl

theorem length_decimal_le {n k : ℕ} (hk : 0 < k) (h : n < 10 ^ k) : (decimal n).length ≤ k := by
  rw [decimal, List.length_map]
  exact (Nat.length_toDigits_le_iff (by decide) hk).mpr h

namespace Json

theorem width_escape (c : CodePoint) :
    pointWidth c ≤ Python.width (escape c) ∧ Python.width (escape c) ≤ 6 := by
  unfold escape
  cases hc : shortEscapes.lookup c with
  | some e =>
    obtain ⟨hlt, hlt'⟩ := val_lt_of_mem_shortEscapes _ (mem_of_lookup hc)
    rw [width_cons, width_cons, width_nil, pointWidth_of_lt hlt, pointWidth_of_lt hlt',
      pointWidth_of_lt (by decide)]
    decide
  | none =>
    simp only
    split_ifs with hlt
    · rw [width_of_lt, pointWidth_of_lt (hlt.trans (by decide))]
      · exact ⟨Nat.le_add_left 1 5, le_rfl⟩
      · simp only [List.forall_mem_cons]
        exact ⟨by decide, by decide, by decide, by decide, hexDigit_val_lt _ (by omega),
          hexDigit_val_lt _ (by omega), fun _ h => absurd h List.not_mem_nil⟩
    · rw [width_cons, width_nil, Nat.add_zero]
      exact ⟨le_rfl, (pointWidth_le c).trans (by decide)⟩

theorem width_quote (s : PyStr) :
    Python.width s + 2 ≤ Python.width (quote s) ∧ Python.width (quote s) ≤ 6 * s.length + 2 := by
  have hflat : Python.width s ≤ Python.width (s.flatMap escape) ∧
      Python.width (s.flatMap escape) ≤ 6 * s.length := by
    induction s with
    | nil => exact ⟨le_rfl, le_rfl⟩
    | cons c s ih =>
      obtain ⟨hle, hle'⟩ := width_escape c
      rw [List.flatMap_cons, width_append, width_cons, List.length_cons]
      omega
  rw [quote, width_append, width_cons, width_cons, width_nil, pointWidth_of_lt (by decide)]
  omega

def width (v : Json) : ℕ := Python.width v.dump

def memberWidth (kv : PyStr × Json) : ℕ := Python.width (quote kv.1) + kv.2.width + 2

theorem memberWidth_mk (k : PyStr) (x : Json) :
    memberWidth (k, x) = Python.width (quote k) + x.width + 2 := rfl

theorem width_dumpItems (xs : List Json) :
    Python.width (dumpItems xs) = (xs.map fun x => x.width + 1).sum + 1 := by
  induction xs with
  | nil => rfl
  | cons x xs ih =>
    rw [dumpItems, width_cons, width_append, ih, pointWidth_of_lt (by decide), List.map_cons,
      List.sum_cons, ← width]
    omega

theorem width_dumpMembers (kvs : List (PyStr × Json)) :
    Python.width (dumpMembers kvs) = (kvs.map memberWidth).sum + 1 := by
  induction kvs with
  | nil => rfl
  | cons kv kvs ih =>
    obtain ⟨k, x⟩ := kv
    rw [dumpMembers, width_cons, width_append, width_cons, width_append, ih,
      pointWidth_of_lt (by decide), pointWidth_of_lt (by decide), List.map_cons, List.sum_cons,
      memberWidth_mk, ← width]
    omega

theorem width_arr {xs : List Json} (h : xs ≠ []) :
    (arr xs).width = (xs.map fun x => x.width + 1).sum + 1 := by
  cases xs with
  | nil => exact absurd rfl h
  | cons x xs =>
    rw [width, dump, width_cons, width_append, width_dumpItems, pointWidth_of_lt (by decide),
      List.map_cons, List.sum_cons, ← width]
    omega

theorem width_obj {kvs : List (PyStr × Json)} (h : kvs ≠ []) :
    (obj kvs).width = (kvs.map memberWidth).sum + 1 := by
  cases kvs with
  | nil => exact absurd rfl h
  | cons kv kvs =>
    obtain ⟨k, x⟩ := kv
    rw [width, dump, width_cons, width_append, width_cons, width_append, width_dumpMembers,
      pointWidth_of_lt (by decide), pointWidth_of_lt (by decide), List.map_cons, List.sum_cons,
      memberWidth_mk, ← width]
    omega

theorem sum_width_succ (xs : List Json) :
    (xs.map fun x => x.width + 1).sum = (xs.map width).sum + xs.length := by
  induction xs with
  | nil => rfl
  | cons x xs ih =>
    rw [List.map_cons, List.sum_cons, ih, List.map_cons, List.sum_cons, List.length_cons]
    omega

theorem width_arr_eq (xs : List Json) :
    (arr xs).width = (xs.map width).sum + (xs.length - 1) + 2 := by
  by_cases h : xs = []
  · subst h
    decide
  · have hpos := List.length_pos_of_ne_nil h
    rw [width_arr h, sum_width_succ]
    omega

theorem width_le_of_mem {kvs : List (PyStr × Json)} {k : PyStr} {x : Json} (h : (k, x) ∈ kvs) :
    x.width ≤ (obj kvs).width := by
  have hsum : memberWidth (k, x) ≤ (kvs.map memberWidth).sum :=
    List.single_le_sum (fun w _ => Nat.zero_le w) _ (List.mem_map_of_mem h)
  rw [memberWidth_mk] at hsum
  rw [width_obj (List.ne_nil_of_mem h)]
  omega

theorem width_arr_le (xs : List Json) : (arr xs).width ≤ (xs.map fun x => x.width + 1).sum + 2 := by
  by_cases h : xs = []
  · subst h
    decide
  · rw [width_arr h]
    omega

theorem width_str_le (s : PyStr) : (str s).width ≤ 6 * s.length + 2 := (width_quote s).2

theorem le_width_str (s : PyStr) : Python.width s ≤ (str s).width :=
  (Nat.le_add_right _ 2).trans (width_quote s).1

/-! The order of members does not matter. -/

mutual

theorem width_sortKeys : ∀ v : Json, v.sortKeys.width = v.width
  | null | bool _ | int _ | float _ | str _ => rfl
  | arr xs => by
    have hxs := width_sortKeysList xs
    by_cases h : xs = []
    · subst h
      rfl
    · have h' : sortKeysList xs ≠ [] := by
        rw [sortKeysList_eq]
        exact fun hn => h (List.map_eq_nil_iff.mp hn)
      rw [sortKeys, width_arr h', width_arr h, hxs]
  | obj kvs => by
    have hkvs := width_sortKeysMembers kvs
    by_cases h : kvs = []
    · subst h
      rfl
    · have hperm : (sortMembers (sortKeysMembers kvs)).Perm (sortKeysMembers kvs) :=
        List.perm_insertionSort _ _
      have h' : sortMembers (sortKeysMembers kvs) ≠ [] := by
        intro hn
        rw [hn, sortKeysMembers_eq] at hperm
        exact h (List.map_eq_nil_iff.mp hperm.nil_eq.symm)
      rw [sortKeys, width_obj h', width_obj h, (hperm.map memberWidth).sum_eq, hkvs]

theorem width_sortKeysList : ∀ xs : List Json,
    ((sortKeysList xs).map fun x => x.width + 1).sum = (xs.map fun x => x.width + 1).sum
  | [] => rfl
  | x :: xs => by
    rw [sortKeysList, List.map_cons, List.sum_cons, List.map_cons, List.sum_cons,
      width_sortKeys x, width_sortKeysList xs]

theorem width_sortKeysMembers : ∀ kvs : List (PyStr × Json),
    ((sortKeysMembers kvs).map memberWidth).sum = (kvs.map memberWidth).sum
  | [] => rfl
  | (k, x) :: kvs => by
    rw [sortKeysMembers, List.map_cons, List.sum_cons, List.map_cons, List.sum_cons,
      memberWidth, memberWidth, width_sortKeys x, width_sortKeysMembers kvs]

end

end Json

end Python

namespace HistoryAnchor

open Python

theorem Codec.length_canonicalJsonBytes {v : Json} {b : Bytes}
    (h : Codec.canonicalJsonBytes v = .ok b) : b.length = v.width := by
  rw [length_utf8_eq (Codec.canonicalJsonBytes_ok h).2, ← Json.width, Json.width_sortKeys]

end HistoryAnchor

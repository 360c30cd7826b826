import Mathlib.Algebra.Group.Nat.Defs
import Mathlib.Data.Nat.Log
import Mathlib.Data.Set.Function
import Mathlib.Data.List.Basic
import Mathlib.Data.List.Nodup

/-! # Binary hash trees over a list

The levels of a tree are built by pairing neighbours, the last node of an odd
level with itself. A path hashes a value upwards with one sibling a step. If the
node hash has no collision on the pairs involved, a path that ends in a level
starts in the level as many steps below.
-/

namespace MerkleTree

variable {D : Type*}

inductive Side | left | right
  deriving DecidableEq, Repr

/-- One step of a path: a sibling and the side it stands on. -/
structure Step (D : Type*) where
  sibling : D
  side : Side
  deriving DecidableEq

def pad (l : List D) : List D :=
  if l.length % 2 = 1 then l ++ l.getLast?.toList else l

def pairs : List D → List (D × D)
  | a :: b :: l => (a, b) :: pairs l
  | _ => []

def Step.pair (s : Step D) (v : D) : D × D :=
  match s.side with
  | .left => (s.sibling, v)
  | .right => (v, s.sibling)

variable (H : D × D → D)

def parents (l : List D) : List D := (pairs (pad l)).map H

def level (l : List D) : ℕ → List D
  | 0 => l
  | n + 1 => parents H (level l n)

def height (l : List D) : ℕ := Nat.clog 2 l.length

def treePairs (l : List D) : Set (D × D) := {p | ∃ n < height l, p ∈ pairs (pad (level H l n))}

def climb (v : D) (path : List (Step D)) : D := path.foldl (fun v s => H (s.pair v)) v

def pathPairs (v : D) : List (Step D) → Set (D × D)
  | [] => ∅
  | s :: path => insert (s.pair v) (pathPairs (H (s.pair v)) path)

variable {H}

@[simp] theorem level_zero (l : List D) : level H l 0 = l := rfl

theorem level_succ (l : List D) (n : ℕ) : level H l (n + 1) = parents H (level H l n) := rfl

theorem level_succ' (l : List D) (n : ℕ) : level H l (n + 1) = level H (parents H l) n := by
  induction n with
  | zero => rfl
  | succ n ih => rw [level_succ, ih, level_succ]

@[simp] theorem climb_nil (v : D) : climb H v [] = v := rfl

@[simp] theorem climb_cons (v : D) (s : Step D) (path : List (Step D)) :
    climb H v (s :: path) = climb H (H (s.pair v)) path := rfl

theorem climb_append (v : D) (p q : List (Step D)) :
    climb H v (p ++ q) = climb H (climb H v p) q := by
  simp [climb, List.foldl_append]

theorem pathPairs_append (v : D) (p q : List (Step D)) :
    pathPairs H v (p ++ q) = pathPairs H v p ∪ pathPairs H (climb H v p) q := by
  induction p generalizing v with
  | nil => simp [pathPairs]
  | cons s p ih => simp only [List.cons_append, pathPairs, ih, climb_cons, Set.insert_union]

theorem length_pad (l : List D) : (pad l).length = 2 * ((l.length + 1) / 2) := by
  unfold pad
  split_ifs with h
  · cases l with
    | nil => simp at h
    | cons a l =>
      simp only [List.getLast?_cons, Option.toList_some, List.length_append, List.length_singleton]
      omega
  · omega

theorem mem_pad {l : List D} {a : D} : a ∈ pad l ↔ a ∈ l := by
  unfold pad
  split_ifs
  · simp only [List.mem_append, Option.mem_toList, or_iff_left_iff_imp]
    exact List.mem_of_mem_getLast?
  · rfl

theorem length_pairs : ∀ l : List D, (pairs l).length = l.length / 2
  | a :: b :: l => by
      simp only [pairs, List.length_cons, length_pairs l]
      omega
  | [_] => by simp [pairs]
  | [] => by simp [pairs]

theorem getElem?_pairs : ∀ (l : List D) (k : ℕ),
    (pairs l)[k]? = (l[2 * k]?).bind fun a => (l[2 * k + 1]?).map fun b => (a, b)
  | a :: b :: l, 0 => by simp [pairs]
  | a :: b :: l, k + 1 => by
      simp only [pairs, List.getElem?_cons_succ, getElem?_pairs l k, Nat.mul_add, Nat.mul_one]
  | [a], 0 => rfl
  | [a], k + 1 => by simp [pairs]
  | [], k => by simp [pairs]

theorem mem_of_mem_pairs {l : List D} {a b : D} (h : (a, b) ∈ pairs l) : a ∈ l ∧ b ∈ l := by
  obtain ⟨k, hk⟩ := List.mem_iff_getElem?.mp h
  simp only [getElem?_pairs, Option.bind_eq_some_iff, Option.map_eq_some_iff, Prod.mk.injEq] at hk
  obtain ⟨_, ha, _, hb, rfl, rfl⟩ := hk
  exact ⟨List.mem_of_getElem? ha, List.mem_of_getElem? hb⟩

theorem getElem?_pad {l : List D} {i : ℕ} (h : i < l.length) : (pad l)[i]? = l[i]? := by
  unfold pad
  split_ifs
  · rw [List.getElem?_append_left h]
  · rfl

theorem length_parents (l : List D) : (parents H l).length = (l.length + 1) / 2 := by
  rw [parents, List.length_map, length_pairs, length_pad]
  omega

theorem height_parents {l : List D} (h : 1 < l.length) : height (parents H l) + 1 = height l := by
  rw [height, height, length_parents, Nat.clog_of_one_lt (by omega) h, Nat.add_sub_assoc (by omega)]

theorem height_eq_zero {l : List D} : height l = 0 ↔ l.length ≤ 1 := by
  rw [height, ← Nat.le_zero, Nat.clog_le_iff_le_pow (by omega), Nat.pow_zero]

theorem length_level_height (l : List D) (h : l ≠ []) : (level H l (height l)).length = 1 := by
  induction hn : height l generalizing l with
  | zero =>
    have hle := height_eq_zero.mp hn
    have hpos := List.length_pos_of_ne_nil h
    rw [level_zero]
    omega
  | succ n ih =>
    have hlt : 1 < l.length := by
      by_contra hle
      have h0 := height_eq_zero.mpr (Nat.le_of_not_lt hle)
      omega
    have hp := height_parents (H := H) hlt
    rw [level_succ']
    apply ih _ _ (by omega)
    intro h0
    have hlen := length_parents (H := H) l
    rw [h0, List.length_nil] at hlen
    omega

/-- A path that ends in a level starts in the level as many steps below, unless `H` collides on
the pairs of the tree and of the path. -/
theorem mem_level_of_climb {S : Set (D × D)} (hS : S.InjOn H) {l : List D} {j : ℕ} {v : D}
    {path : List (Step D)} (htree : treePairs H l ⊆ S) (hpath : pathPairs H v path ⊆ S)
    (hj : j + path.length ≤ height l) (h : climb H v path ∈ level H l (j + path.length)) :
    v ∈ level H l j := by
  induction path generalizing v j with
  | nil => exact h
  | cons s path ih =>
    rw [List.length_cons] at hj h
    have hup : H (s.pair v) ∈ level H l (j + 1) := by
      apply ih (fun p hp => hpath (Set.mem_insert_of_mem _ hp)) (by omega)
      rwa [show j + 1 + path.length = j + (path.length + 1) by omega]
    obtain ⟨p, hp, he⟩ := List.mem_map.mp hup
    have hps : p = s.pair v :=
      hS (htree ⟨j, by omega, hp⟩) (hpath (Set.mem_insert _ _)) he
    obtain ⟨ha, hb⟩ := mem_of_mem_pairs (hps ▸ hp : ((s.pair v).1, (s.pair v).2) ∈ _)
    unfold Step.pair at ha hb
    cases hs : s.side with
    | left => rw [hs] at hb; exact mem_pad.mp hb
    | right => rw [hs] at ha; exact mem_pad.mp ha

/-- The step from a node to its parent: the other node of its pair. -/
def siblingStep (l : List D) (i : ℕ) : Option (Step D) :=
  if i % 2 = 1 then l[i - 1]?.map fun a => ⟨a, .left⟩ else l[i + 1]?.map fun a => ⟨a, .right⟩

variable (H) in
def pathFrom : ℕ → List D → ℕ → Option (List (Step D))
  | 0, _, _ => some []
  | n + 1, l, i => do
      let s ← siblingStep (pad l) i
      let path ← pathFrom n (parents H l) (i / 2)
      return s :: path

theorem siblingStep_pair {l : List D} {i : ℕ} {v : D} (h : l[i]? = some v) :
    ∃ s, siblingStep (pad l) i = some s ∧ (pairs (pad l))[i / 2]? = some (s.pair v) := by
  obtain ⟨hi, _⟩ := List.getElem?_eq_some_iff.mp h
  have hv : (pad l)[i]? = some v := by rw [getElem?_pad hi, h]
  have hlen := length_pad l
  rcases Nat.mod_two_eq_zero_or_one i with h0 | h1
  · have hlt : i + 1 < (pad l).length := by omega
    refine ⟨⟨(pad l)[i + 1], .right⟩, ?_, ?_⟩
    · rw [siblingStep, if_neg (by omega), List.getElem?_eq_getElem hlt]
      rfl
    · rw [getElem?_pairs, show 2 * (i / 2) = i by omega, hv, List.getElem?_eq_getElem hlt]
      rfl
  · have hlt : i - 1 < (pad l).length := by omega
    refine ⟨⟨(pad l)[i - 1], .left⟩, ?_, ?_⟩
    · rw [siblingStep, if_pos h1, List.getElem?_eq_getElem hlt]
      rfl
    · rw [getElem?_pairs, show 2 * (i / 2) = i - 1 by omega, show i - 1 + 1 = i by omega, hv,
        List.getElem?_eq_getElem hlt]
      rfl

/-- The path from a node climbs to the node above it, over pairs of the tree only. -/
theorem climb_pathFrom {n : ℕ} {l : List D} {i : ℕ} {v : D} (h : l[i]? = some v) :
    ∃ path, pathFrom H n l i = some path ∧ path.length = n ∧
      (level H l n)[i / 2 ^ n]? = some (climb H v path) ∧
      ∀ p ∈ pathPairs H v path, ∃ k < n, p ∈ pairs (pad (level H l k)) := by
  induction n generalizing l i v with
  | zero => exact ⟨[], rfl, rfl, by simpa using h, by simp [pathPairs]⟩
  | succ n ih =>
    obtain ⟨s, hs, hp⟩ := siblingStep_pair h
    have hup : (parents H l)[i / 2]? = some (H (s.pair v)) := by
      rw [parents, List.getElem?_map, hp]
      rfl
    obtain ⟨path, hpath, hlen, hc, hsub⟩ := ih hup
    refine ⟨s :: path, by simp [pathFrom, hs, hpath], by simp [hlen], ?_, ?_⟩
    · rw [level_succ', climb_cons, ← hc, Nat.div_div_eq_div_mul, Nat.pow_succ']
    · rintro p (rfl | hp')
      · exact ⟨0, Nat.succ_pos n, List.mem_of_getElem? hp⟩
      · obtain ⟨k, hk, hm⟩ := hsub p hp'
        exact ⟨k + 1, by omega, by rwa [level_succ']⟩

-- A level without repetitions is determined by the level above it. As long as a tree has no
-- collision its levels repeat no node, and where no leaf is itself the hash of a pair, two trees
-- with one top node are of one height.

theorem eq_of_pairs_eq : ∀ {l l' : List D}, l.length % 2 = 0 → l'.length % 2 = 0 →
    pairs l = pairs l' → l = l'
  | [], [], _, _, _ => rfl
  | [], [_], _, h, _ => by simp at h
  | [_], _, h, _, _ => by simp at h
  | _ :: _ :: _, [_], _, h, _ => by simp at h
  | [], _ :: _ :: _, _, _, h => by simp [pairs] at h
  | _ :: _ :: _, [], _, _, h => by simp [pairs] at h
  | a :: b :: l, a' :: b' :: l', hl, hl', h => by
    simp only [pairs, List.cons.injEq, Prod.mk.injEq] at h
    obtain ⟨⟨rfl, rfl⟩, htl⟩ := h
    rw [List.length_cons, List.length_cons] at hl hl'
    rw [eq_of_pairs_eq (by omega) (by omega) htl]

theorem eq_of_pad_eq {l l' : List D} (hl : l.Nodup) (hl' : l'.Nodup) (h : pad l = pad l') :
    l = l' := by
  have hrepeat : ∀ {k : List D}, k.length % 2 = 1 → ¬(k ++ k.getLast?.toList).Nodup := by
    intro k hk hn
    have hne : k ≠ [] := by
      rintro rfl
      simp at hk
    rw [List.getLast?_eq_some_getLast hne, Option.toList_some] at hn
    exact (List.nodup_append.mp hn).2.2 _ (List.getLast_mem hne) _ (List.mem_singleton_self _) rfl
  unfold pad at h
  split_ifs at h with h₁ h₂ h₂
  · have hne : l ≠ [] := by
      rintro rfl
      simp at h₁
    have hne' : l' ≠ [] := by
      rintro rfl
      simp at h₂
    rw [List.getLast?_eq_some_getLast hne, List.getLast?_eq_some_getLast hne',
      Option.toList_some, Option.toList_some] at h
    exact (List.append_inj' h rfl).1
  · exact absurd (h ▸ hl') (hrepeat h₁)
  · exact absurd (h ▸ hl) (hrepeat h₂)
  · exact h

variable {S : Set (D × D)} {l l' : List D}

theorem nodup_pairs_pad (h : l.Nodup) : (pairs (pad l)).Nodup := by
  rw [List.nodup_iff_getElem?_ne_getElem?] at h ⊢
  intro i j hij hj he
  rw [length_pairs, length_pad] at hj
  have hi' : 2 * i < l.length := by omega
  have hj' : 2 * j < l.length := by omega
  rw [getElem?_pairs, getElem?_pairs, getElem?_pad hi', getElem?_pad hj',
    List.getElem?_eq_getElem hi', List.getElem?_eq_getElem hj'] at he
  have hlast : 2 * i + 1 < (pad l).length := by
    rw [length_pad]
    omega
  rw [List.getElem?_eq_getElem hlast] at he
  obtain ⟨b, -, hb⟩ := Option.map_eq_some_iff.mp he.symm
  apply h (2 * i) (2 * j) (by omega) hj'
  rw [List.getElem?_eq_getElem hi', List.getElem?_eq_getElem hj', (Prod.mk.inj hb).1]

theorem map_eq_of_injOn : ∀ {k k' : List (D × D)}, S.InjOn H → (∀ p ∈ k, p ∈ S) →
    (∀ p ∈ k', p ∈ S) → k.map H = k'.map H → k = k'
  | [], [], _, _, _, _ => rfl
  | [], _ :: _, _, _, _, h => by cases h
  | _ :: _, [], _, _, _, h => by cases h
  | p :: k, p' :: k', hS, hk, hk', h => by
    obtain ⟨hp, htl⟩ := List.cons.inj h
    rw [List.forall_mem_cons] at hk hk'
    rw [hS hk.1 hk'.1 hp, map_eq_of_injOn hS hk.2 hk'.2 htl]

theorem nodup_parents (hS : S.InjOn H) (hl : ∀ p ∈ pairs (pad l), p ∈ S) (h : l.Nodup) :
    (parents H l).Nodup :=
  List.Nodup.map_on (fun p hp q hq he => hS (hl p hp) (hl q hq) he) (nodup_pairs_pad h)

theorem nodup_level (hS : S.InjOn H) (htree : treePairs H l ⊆ S) (h : l.Nodup) :
    ∀ n ≤ height l, (level H l n).Nodup := by
  intro n hn
  induction n with
  | zero => exact h
  | succ n ih => exact nodup_parents hS (fun p hp => htree ⟨n, hn, hp⟩) (ih (by omega))

theorem eq_of_parents_eq (hS : S.InjOn H) (hl : ∀ p ∈ pairs (pad l), p ∈ S)
    (hl' : ∀ p ∈ pairs (pad l'), p ∈ S) (hn : l.Nodup) (hn' : l'.Nodup)
    (h : parents H l = parents H l') : l = l' := by
  have hpairs := map_eq_of_injOn hS hl hl' h
  apply eq_of_pad_eq hn hn'
  apply eq_of_pairs_eq _ _ hpairs
  · rw [length_pad]
    omega
  · rw [length_pad]
    omega

theorem level_eq_of_top (hS : S.InjOn H) (htree : treePairs H l ⊆ S) (htree' : treePairs H l' ⊆ S)
    (hn : l.Nodup) (hn' : l'.Nodup) (htop : level H l (height l) = level H l' (height l')) :
    ∀ n ≤ height l, n ≤ height l' → level H l (height l - n) = level H l' (height l' - n) := by
  intro n hle hle'
  induction n with
  | zero => exact htop
  | succ n ih =>
    have hup := ih (by omega) (by omega)
    rw [show height l - n = height l - (n + 1) + 1 by omega,
      show height l' - n = height l' - (n + 1) + 1 by omega, level_succ, level_succ] at hup
    exact eq_of_parents_eq hS (fun p hp => htree ⟨_, by omega, hp⟩)
      (fun p hp => htree' ⟨_, by omega, hp⟩) (nodup_level hS htree hn _ (by omega))
      (nodup_level hS htree' hn' _ (by omega)) hup

theorem height_le_of_top (hS : S.InjOn H) (htree : treePairs H l ⊆ S)
    (htree' : treePairs H l' ⊆ S) (hn : l.Nodup) (hn' : l'.Nodup) (hne : l ≠ [])
    (hleaf : ∀ a ∈ l, ∀ p ∈ S, H p ≠ a)
    (htop : level H l (height l) = level H l' (height l')) : height l' ≤ height l := by
  by_contra hlt
  have hlevel := level_eq_of_top hS htree htree' hn hn' htop (height l) le_rfl (by omega)
  rw [Nat.sub_self, level_zero] at hlevel
  obtain ⟨k, hk⟩ : ∃ k, height l' - height l = k + 1 := ⟨height l' - height l - 1, by omega⟩
  obtain ⟨a, ha⟩ := List.exists_mem_of_ne_nil l hne
  rw [hk, level_succ] at hlevel
  obtain ⟨p, hp, he⟩ := List.mem_map.mp (hlevel ▸ ha : a ∈ parents H (level H l' k))
  exact hleaf a ha p (htree' ⟨k, by omega, hp⟩) he

theorem eq_of_top (hS : S.InjOn H) (htree : treePairs H l ⊆ S) (htree' : treePairs H l' ⊆ S)
    (hn : l.Nodup) (hn' : l'.Nodup) (hne : l ≠ []) (hne' : l' ≠ [])
    (hleaf : ∀ a ∈ l, ∀ p ∈ S, H p ≠ a) (hleaf' : ∀ a ∈ l', ∀ p ∈ S, H p ≠ a)
    (htop : level H l (height l) = level H l' (height l')) : l = l' := by
  have hheight : height l = height l' := le_antisymm
    (height_le_of_top hS htree' htree hn' hn hne' hleaf' htop.symm)
    (height_le_of_top hS htree htree' hn hn' hne hleaf htop)
  have hlevel := level_eq_of_top hS htree htree' hn hn' htop (height l) le_rfl hheight.le
  rwa [← hheight, Nat.sub_self, level_zero, level_zero] at hlevel

end MerkleTree

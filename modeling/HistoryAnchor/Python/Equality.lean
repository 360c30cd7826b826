import HistoryAnchor.Python.Encoding

/-! # Equality of typed values

Two JSON values are the same if they have one type and one content, where the order of
members is no content. Sorting the keys turns this into equality.
-/

namespace Python.Json

mutual

/-- Equality of typed values up to the order of members: `true` is not `1`. -/
def same : Json → Json → Bool
  | null, null => true
  | bool b, bool c => b = c
  | int m, int n => m = n
  | float p, float q => p = q
  | str s, str t => s = t
  | arr xs, arr ys => sameItems xs ys
  | obj kvs, obj lws => lws.all (fun kv => kv.1 ∈ kvs.map Prod.fst) && sameMembers kvs lws
  | _, _ => false

def sameItems : List Json → List Json → Bool
  | [], [] => true
  | x :: xs, y :: ys => x.same y && sameItems xs ys
  | _, _ => false

def sameMembers : List (PyStr × Json) → List (PyStr × Json) → Bool
  | [], _ => true
  | (k, x) :: kvs, lws => (lws.lookup k).any (fun y => x.same y) && sameMembers kvs lws

end

theorem wfList_iff {xs : List Json} : WFList xs ↔ ∀ x ∈ xs, x.WF := by
  induction xs with
  | nil => simp [WFList]
  | cons x xs ih => simp [WFList, ih]

theorem wfMembers_iff {kvs : List (PyStr × Json)} : WFMembers kvs ↔ ∀ kv ∈ kvs, kv.2.WF := by
  induction kvs with
  | nil => simp [WFMembers]
  | cons kv kvs ih => simp [WFMembers, ih]

/-- Objects agree under every key when each key of one is a key of the other, which has the value
there. -/
theorem lookup_map_eq_iff {kvs lws : List (PyStr × Json)} (hk : (kvs.map Prod.fst).Nodup) :
    (∀ k, (kvs.lookup k).map sortKeys = (lws.lookup k).map sortKeys) ↔
      (∀ kv ∈ lws, kv.1 ∈ kvs.map Prod.fst) ∧
        ∀ kv ∈ kvs, ∃ y, lws.lookup kv.1 = some y ∧ kv.2.sortKeys = y.sortKeys := by
  constructor
  · intro h
    refine ⟨fun kv hkv => ?_, fun kv hkv => ?_⟩
    · by_contra hno
      have hnone : kvs.lookup kv.1 = none := List.lookup_eq_none_iff.mpr fun p hp =>
        bne_iff_ne.mpr fun he => hno (List.mem_map.mpr ⟨p, hp, he.symm⟩)
      have hl := h kv.1
      rw [hnone, Option.map_none, eq_comm, Option.map_eq_none_iff] at hl
      exact bne_iff_ne.mp (List.lookup_eq_none_iff.mp hl kv hkv) rfl
    · have hl := h kv.1
      rw [(lookup_eq_some_iff hk).mpr hkv, Option.map_some, eq_comm, Option.map_eq_some_iff] at hl
      obtain ⟨y, hy, he⟩ := hl
      exact ⟨y, hy, he.symm⟩
  · rintro ⟨hkeys, hvalues⟩ k
    cases hl : kvs.lookup k with
    | some x =>
      obtain ⟨y, hy, he⟩ := hvalues (k, x) (mem_of_lookup hl)
      rw [hy, Option.map_some, Option.map_some, he]
    | none =>
      cases hl' : lws.lookup k with
      | none => rfl
      | some y =>
        obtain ⟨p, hp, he⟩ := List.mem_map.mp (hkeys (k, y) (mem_of_lookup hl'))
        exact absurd he.symm (bne_iff_ne.mp (List.lookup_eq_none_iff.mp hl p hp))

mutual

theorem same_iff : ∀ (v w : Json), v.WF → w.WF → (v.same w = true ↔ v.sortKeys = w.sortKeys)
  | null, w, _, _ | bool _, w, _, _ | int _, w, _, _ | float _, w, _, _ | str _, w, _, _ => by
    cases w <;> simp [same, sortKeys]
  | arr xs, w, hv, hw => by
    cases w with
    | arr ys =>
      rw [same, sortKeys, sortKeys, Json.arr.injEq]
      exact sameItems_iff xs ys hv hw
    | _ => simp [same, sortKeys]
  | obj kvs, w, hv, hw => by
    cases w with
    | obj lws =>
      rw [same, Bool.and_eq_true, sameMembers_iff kvs lws hv.2 hw.2,
        sortKeys_obj_eq_iff hv.1 hw.1, lookup_map_eq_iff hv.1]
      simp only [List.all_eq_true, decide_eq_true_eq]
    | _ => simp [same, sortKeys]

theorem sameItems_iff : ∀ (xs ys : List Json), WFList xs → WFList ys →
    (sameItems xs ys = true ↔ sortKeysList xs = sortKeysList ys)
  | [], ys, _, _ => by cases ys <;> simp [sameItems, sortKeysList]
  | x :: xs, [], _, _ => by simp [sameItems, sortKeysList]
  | x :: xs, y :: ys, hx, hy => by
    rw [sameItems, Bool.and_eq_true, same_iff x y hx.1 hy.1, sameItems_iff xs ys hx.2 hy.2,
      sortKeysList, sortKeysList, List.cons.injEq]

theorem sameMembers_iff : ∀ (kvs lws : List (PyStr × Json)), WFMembers kvs → WFMembers lws →
    (sameMembers kvs lws = true ↔
      ∀ kv ∈ kvs, ∃ y, lws.lookup kv.1 = some y ∧ kv.2.sortKeys = y.sortKeys)
  | [], _, _, _ => by simp [sameMembers]
  | (k, x) :: kvs, lws, hk, hl => by
    rw [sameMembers, Bool.and_eq_true, sameMembers_iff kvs lws hk.2 hl, List.forall_mem_cons]
    apply and_congr_left'
    cases hy : lws.lookup k with
    | none => simp
    | some y =>
      have hwf : y.WF := wfMembers_iff.mp hl (k, y) (mem_of_lookup hy)
      simp [same_iff x y hk.1 hwf]

end

end Python.Json

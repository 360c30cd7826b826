import HistoryAnchor.Protocol.Canonical
import HistoryAnchor.Protocol.Uniqueness
import HistoryAnchor.Python.Decoding

/-! # The canonical encoding is faithful

Which values have a canonical encoding is said of their parts; the bytes do not depend on the
order of members, read back as the value, and determine it.
-/

namespace Python

def IsSurrogate (c : CodePoint) : Prop := 0xD800 ≤ c.val ∧ c.val ≤ 0xDFFF

theorem utf8Point_ne_none {c : CodePoint} : utf8Point c ≠ none ↔ ¬ IsSurrogate c := by
  unfold utf8Point IsSurrogate
  dsimp only
  split_ifs <;> simp only [ne_eq, reduceCtorEq, not_true, not_false_iff, true_iff, false_iff] <;>
    omega

namespace Json

theorem Part.wf {d : ℕ} {v x : Json} (h : Part d v x) (hv : v.WF) : x.WF := by
  induction h with
  | self => exact hv
  | item hx _ ih => exact ih (wfList_iff.mp hv _ hx)
  | member hkv _ ih => exact ih (wfMembers_iff.mp hv.2 _ hkv)

theorem sortKeys_sortKeys (v : Json) : v.sortKeys.sortKeys = v.sortKeys := by
  induction v using induct with
  | harr xs ih =>
    simp only [sortKeys, sortKeysList_eq, List.map_map, Json.arr.injEq]
    exact List.map_congr_left ih
  | hobj kvs ih =>
    have hfix : sortKeysMembers (sortMembers (sortKeysMembers kvs)) =
        sortMembers (sortKeysMembers kvs) := by
      rw [sortKeysMembers_eq (sortMembers _)]
      refine (List.map_congr_left (g := id) fun kv hkv => ?_).trans (List.map_id _)
      rw [mem_sortMembers, sortKeysMembers_eq] at hkv
      obtain ⟨lw, hlw, rfl⟩ := List.mem_map.mp hkv
      exact Prod.ext rfl (ih lw hlw)
    have hsorted : sortMembers (sortMembers (sortKeysMembers kvs)) =
        sortMembers (sortKeysMembers kvs) :=
      (List.pairwise_insertionSort _ _).insertionSort_eq
    rw [sortKeys, sortKeys, hfix, hsorted]
  | _ => rfl

theorem wf_sortKeys (v : Json) (h : v.WF) : v.sortKeys.WF := by
  induction v using induct with
  | harr xs ih =>
    rw [sortKeys, sortKeysList_eq]
    refine wfList_iff.mpr fun y hy => ?_
    obtain ⟨x, hx, rfl⟩ := List.mem_map.mp hy
    exact ih x hx (wfList_iff.mp h x hx)
  | hobj kvs ih =>
    have hperm : (sortMembers (sortKeysMembers kvs)).Perm (sortKeysMembers kvs) :=
      List.perm_insertionSort _ _
    refine ⟨?_, wfMembers_iff.mpr fun kv hkv => ?_⟩
    · rw [(hperm.map Prod.fst).nodup_iff, keys_sortKeysMembers]
      exact h.1
    · rw [mem_sortMembers, sortKeysMembers_eq] at hkv
      obtain ⟨lw, hlw, rfl⟩ := List.mem_map.mp hkv
      exact ih lw hlw (wfMembers_iff.mp h.2 lw hlw)
  | _ => exact h

end Json

end Python

namespace HistoryAnchor

open Python

/-- What the encoding asks of a part: no float, integers in the safe range, no surrogates in texts
and keys. -/
def Allowed : Json → Prop
  | .float _ => False
  | .int n => -Codec.maxSafeJsonInteger ≤ n ∧ n ≤ Codec.maxSafeJsonInteger
  | .str s => ∀ c ∈ s, ¬ IsSurrogate c
  | .obj kvs => ∀ kv ∈ kvs, ∀ c ∈ kv.1, ¬ IsSurrogate c
  | _ => True

theorem encodable_iff {s : PyStr} : Encodable s ↔ ∀ c ∈ s, ¬ IsSurrogate c := by
  simp only [Python.Encodable, utf8Point_ne_none]

theorem Encodes.part {d e : ℕ} {v x : Json} (hp : Json.Part e v x) (h : Encodes d v) :
    Encodes (d + e) x := by
  induction hp generalizing d with
  | self => exact h
  | item hx _ ih =>
    cases h with
    | arr _ hxs => exact (Nat.add_right_comm d _ 1).symm ▸ ih (hxs _ hx)
  | member hkv _ ih =>
    cases h with
    | obj _ _ hkvs => exact (Nat.add_right_comm d _ 1).symm ▸ ih (hkvs _ hkv)

theorem Encodes.allowed {d : ℕ} {v : Json} (h : Encodes d v) : d ≤ 32 ∧ Allowed v := by
  cases h with
  | null h | bool h => exact ⟨h, trivial⟩
  | int h hn => exact ⟨h, hn⟩
  | str h hs => exact ⟨h, encodable_iff.mp hs⟩
  | arr h => exact ⟨h, trivial⟩
  | obj h hkeys => exact ⟨h, fun kv hkv => encodable_iff.mp (hkeys kv hkv)⟩

theorem encodes_iff_parts {v : Json} {d : ℕ} :
    Encodes d v ↔ ∀ e x, Json.Part e v x → d + e ≤ 32 ∧ Allowed x := by
  constructor
  · exact fun h e x hp => (h.part hp).allowed
  · induction v using Json.induct generalizing d with
    | hnull => exact fun h => .null (h 0 _ .self).1
    | hbool b => exact fun h => .bool (h 0 _ .self).1
    | hint n => exact fun h => .int (h 0 _ .self).1 (h 0 _ .self).2
    | hfloat q => exact fun h => (h 0 _ .self).2.elim
    | hstr s => exact fun h => .str (h 0 _ .self).1 (encodable_iff.mpr (h 0 _ .self).2)
    | harr xs ih =>
      intro h
      refine .arr (h 0 _ .self).1 fun x hx => ih x hx fun e y hy => ?_
      have := h (e + 1) y (.item hx hy)
      exact ⟨by omega, this.2⟩
    | hobj kvs ih =>
      intro h
      refine .obj (h 0 _ .self).1 (fun kv hkv => encodable_iff.mpr ((h 0 _ .self).2 kv hkv))
        fun kv hkv => ih kv hkv fun e y hy => ?_
      have := h (e + 1) y (.member hkv hy)
      exact ⟨by omega, this.2⟩

theorem Encodes.sortKeys {d : ℕ} {v : Json} (h : Encodes d v) : Encodes d v.sortKeys := by
  induction v using Json.induct generalizing d with
  | harr xs ih =>
    rw [Json.sortKeys, Json.sortKeysList_eq]
    cases h with
    | arr hd hxs => exact .arr hd (List.forall_mem_map.mpr fun x hx => ih x hx (hxs x hx))
  | hobj kvs ih =>
    have hmem : ∀ kv ∈ Json.sortMembers (Json.sortKeysMembers kvs),
        ∃ lw ∈ kvs, (lw.1, lw.2.sortKeys) = kv := fun kv hkv => by
      rw [Json.mem_sortMembers, Json.sortKeysMembers_eq] at hkv
      exact List.mem_map.mp hkv
    cases h with
    | obj hd hkeys hkvs =>
      refine .obj hd (fun kv hkv => ?_) fun kv hkv => ?_
      · obtain ⟨lw, hlw, rfl⟩ := hmem kv hkv
        exact hkeys lw hlw
      · obtain ⟨lw, hlw, rfl⟩ := hmem kv hkv
        exact ih lw hlw (hkvs lw hlw)
  | _ => exact h

/-- Sorting the members loses none, so a value with sorted members has an encoding only when the
value itself has. -/
theorem Encodes.of_sortKeys {d : ℕ} {v : Json} (h : Encodes d v.sortKeys) : Encodes d v := by
  induction v using Json.induct generalizing d with
  | harr xs ih =>
    rw [Json.sortKeys, Json.sortKeysList_eq] at h
    cases h with
    | arr hd hxs => exact .arr hd fun x hx => ih x hx (hxs _ (List.mem_map_of_mem hx))
  | hobj kvs ih =>
    have hmem : ∀ lw ∈ kvs, (lw.1, lw.2.sortKeys) ∈ Json.sortMembers (Json.sortKeysMembers kvs) :=
      fun lw hlw => by
        rw [Json.mem_sortMembers, Json.sortKeysMembers_eq]
        exact List.mem_map.mpr ⟨lw, hlw, rfl⟩
    cases h with
    | obj hd hkeys hkvs =>
      exact .obj hd (fun lw hlw => hkeys (lw.1, lw.2.sortKeys) (hmem lw hlw))
        fun lw hlw => ih lw hlw (hkvs _ (hmem lw hlw))
  | _ => exact h

theorem length_decimal_le {n k : ℕ} (hk : 0 < k) (h : n < 10 ^ k) : (decimal n).length ≤ k := by
  rw [decimal, List.length_map]
  exact (Nat.length_toDigits_le_iff (by omega) hk).mpr h

theorem Encodes.readable {d : ℕ} {v : Json} (h : Encodes d v) (hw : v.WF) : v.Readable := by
  cases h with
  | int _ hn =>
    unfold Codec.maxSafeJsonInteger at hn
    exact le_trans (length_decimal_le (k := 16) (by omega) (by omega)) (by omega)
  | obj => exact hw.1
  | _ => trivial

namespace Codec

theorem loads_canonicalJsonBytes {loader : Loader} {v : Json} {b : Bytes} (hv : v.WF)
    (h : canonicalJsonBytes v = .ok b) : loader.loads b = some v.sortKeys := by
  have hencodes := (exists_canonicalJsonBytes_iff.mp ⟨b, h⟩).sortKeys
  refine Loader.loads_dump (fun d x hp => ?_) (canonicalJsonBytes_ok h).2
  exact (hencodes.part hp).readable (hp.wf (Json.wf_sortKeys v hv))

theorem canonicalJsonBytes_of_sortKeys_eq {v w : Json} {b : Bytes} (h : v.sortKeys = w.sortKeys)
    (hv : canonicalJsonBytes v = .ok b) : canonicalJsonBytes w = .ok b := by
  have hencodes : Encodes 0 w :=
    .of_sortKeys (h ▸ (exists_canonicalJsonBytes_iff.mp ⟨b, hv⟩).sortKeys)
  obtain ⟨c, hc⟩ := exists_canonicalJsonBytes_iff.mpr hencodes
  rw [hc, canonicalJsonBytes_congr h hv hc]

end Codec

/-- The canonical encoding: what has one, that it does not depend on the order of members, that it
is read back, and that it determines the typed value. -/
theorem canonical_json_faithful (loader : Loader) (v w : Json) (hv : v.WF) (hw : w.WF) :
    ((∃ b, Codec.canonicalJsonBytes v = .ok b) ↔ ∀ d x, Json.Part d v x → d ≤ 32 ∧ Allowed x) ∧
      (v.same w = true → ∀ b, Codec.canonicalJsonBytes v = .ok b →
        Codec.canonicalJsonBytes w = .ok b) ∧
      (∀ b, Codec.canonicalJsonBytes v = .ok b →
        ∃ u, loader.loads b = some u ∧ u.same v = true) ∧
      ∀ b c, Codec.canonicalJsonBytes v = .ok b → Codec.canonicalJsonBytes w = .ok c →
        (b = c ↔ v.same w = true) := by
  refine ⟨?_, fun h b hb => ?_, fun b hb => ?_, fun b c hb hc => ?_⟩
  · simpa only [Nat.zero_add] using
      Codec.exists_canonicalJsonBytes_iff.trans (@encodes_iff_parts v 0)
  · exact Codec.canonicalJsonBytes_of_sortKeys_eq ((Json.same_iff v w hv hw).mp h) hb
  · refine ⟨v.sortKeys, Codec.loads_canonicalJsonBytes hv hb, ?_⟩
    rw [Json.same_iff _ _ (Json.wf_sortKeys v hv) hv, Json.sortKeys_sortKeys]
  · rw [Json.same_iff v w hv hw]
    constructor
    · rintro rfl
      exact Codec.canonicalJsonBytes_inj hb hc
    · exact fun h => Codec.canonicalJsonBytes_congr h hb hc

def orderedSample : Json :=
  .obj [("name", .str "a\"b"), ("values", .arr [.int 1, .bool true, .int (-20)])]

def reorderedSample : Json :=
  .obj [("values", .arr [.int 1, .bool true, .int (-20)]), ("name", .str "a\"b")]

theorem canonical_json_faithful_sample :
    (∃ b, Codec.canonicalJsonBytes orderedSample = .ok b ∧
      Codec.canonicalJsonBytes reorderedSample = .ok b ∧
      ∃ u, (Loader.mk (fun _ => none) fun _ => none).loads b = some u ∧
        u.same orderedSample = true) ∧
    ∀ b c, Codec.canonicalJsonBytes orderedSample = .ok b →
      Codec.canonicalJsonBytes reorderedSample = .ok c →
        (b = c ↔ orderedSample.same reorderedSample = true) := by
  have hwf : orderedSample.WF ∧ reorderedSample.WF := by
    simp only [orderedSample, reorderedSample, Json.WF, Json.WFMembers, Json.WFList, List.map_cons,
      List.map_nil, and_true]
    decide
  obtain ⟨-, hsame, hloads, hiff⟩ := canonical_json_faithful (.mk (fun _ => none) fun _ => none)
    orderedSample reorderedSample hwf.1 hwf.2
  have hex : (Codec.canonicalJsonBytes orderedSample).toOption.isSome = true := by decide +kernel
  obtain ⟨b, hb⟩ : ∃ b, Codec.canonicalJsonBytes orderedSample = .ok b := by
    cases hx : Codec.canonicalJsonBytes orderedSample with
    | ok b => exact ⟨b, rfl⟩
    | error e => rw [hx] at hex; cases hex
  exact ⟨⟨b, hb, hsame (by decide +kernel) b hb, hloads b hb⟩, hiff⟩

end HistoryAnchor

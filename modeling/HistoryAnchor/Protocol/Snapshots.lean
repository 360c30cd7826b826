import HistoryAnchor.Protocol.Shapes

/-! # What a snapshot's validation establishes

A valid snapshot is a closed set: targets, listed records and anchored batches are
in it, and nothing is in it twice. Its integers are those that JSON represents.
-/

namespace HistoryAnchor

open Python

variable [Ed25519] {fields : List (PyStr × Json)} {rs bs as : List Json}

namespace Anchors

omit [Ed25519] in
theorem digestOrNull_str {h field : PyStr} :
    digestOrNull (.str h) field = .ok () ↔ ∃ raw, IsDigest h raw := by
  simp only [digestOrNull, bind_ok, requireDigest_ok, Json.str.injEq]
  constructor
  · rintro ⟨_, ⟨rfl, h⟩, -⟩
    exact h
  · exact fun h => ⟨_, ⟨rfl, h⟩, rfl⟩

omit [Ed25519] in
theorem validateAnchorReference_iff : validateAnchorReference (.obj fields) = .ok () ↔
    Json.hasFields fields anchorFields = true ∧
    (∃ txid, (Json.obj fields).getD "txid" .null = .str txid ∧ ∃ raw, IsDigest txid raw) ∧
    ((Json.obj fields).getD "vout" .null).isNatural ∧
    (∃ i, (Json.obj fields).getD "batch_id" .null = .str i ∧ ∃ raw, IsDigest i raw) ∧
    memberOf ((Json.obj fields).getD "network" .null) Batches.allowedNetworks = .ok true ∧
    memberOf ((Json.obj fields).getD "status" .null) allowedStatuses = .ok true ∧
    ((Json.obj fields).getD "anchored_at" .null).isNatural ∧
    digestOrNull ((Json.obj fields).getD "block_hash" .null) "block_hash" = .ok () ∧
    naturalOrNull ((Json.obj fields).getD "block_height" .null) = true := by
  simp only [validateAnchorReference, bind_ok, require_ok, exists_unit, requireDigest_ok]
  constructor
  · rintro ⟨hf, txid, ht, hv, i, hi, _, hn, rfl, _, hs, rfl, ha, hh, hk⟩
    exact ⟨hf, ⟨txid, ht⟩, hv, ⟨i, hi⟩, hn, hs, ha, hh, hk⟩
  · rintro ⟨hf, ⟨txid, ht⟩, hv, ⟨i, hi⟩, hn, hs, ha, hh, hk⟩
    exact ⟨hf, txid, ht, hv, i, hi, true, hn, rfl, true, hs, rfl, ha, hh, hk⟩

end Anchors

namespace Archive

/-- The checks of the records, batches and anchors of a snapshot. -/
structure Contents (rs bs as : List Json) : Prop where
  records : ∀ r ∈ rs, Records.validateRecord r true = .ok ()
  recordIds : (rs.map (Json.text · "record_id")).Nodup
  targets : ∀ r ∈ rs, r.text "target_record_id" = [] ∨
    r.text "target_record_id" ∈ rs.map (Json.text · "record_id")
  batches : ∀ b ∈ bs, Batches.validateBatch b = .ok ()
  batchIds : (bs.map (Json.text · "batch_id")).Nodup
  listed : ∀ b ∈ bs, ∀ r ∈ b.items "record_ids", r.strValue ∈ rs.map (Json.text · "record_id")
  anchors : ∀ a ∈ as, Anchors.validateAnchorReference a = .ok ()
  points : (as.map fun a => (a.text "txid", a.nat "vout")).Nodup
  anchored : ∀ a ∈ as, a.text "batch_id" ∈ bs.map (Json.text · "batch_id")

omit [Ed25519] in
theorem validateBatches_iff {recordIds batchIds : List PyStr} :
    validateBatches recordIds bs = .ok batchIds ↔
      (∀ b ∈ bs, Batches.validateBatch b = .ok () ∧
        ∀ r ∈ b.items "record_ids", r.strValue ∈ recordIds) ∧
      batchIds.Nodup ∧ batchIds = bs.map (Json.text · "batch_id") := by
  apply foldlM_distinct_iff _ List.nodup_nil
  intro ids b ids'
  simp only [bind_ok, require_ok, exists_unit, pure, Except.pure, Except.ok.injEq]
  constructor
  · rintro ⟨hv, hn, hr, h⟩
    exact ⟨⟨hv, hr⟩, hn, h⟩
  · rintro ⟨⟨hv, hr⟩, hn, h⟩
    exact ⟨hv, hn, hr, h⟩

omit [Ed25519] in
theorem validateAnchors_iff {batchIds : List PyStr} {points : List (PyStr × ℕ)} :
    validateAnchors batchIds as = .ok points ↔
      (∀ a ∈ as, Anchors.validateAnchorReference a = .ok () ∧ a.text "batch_id" ∈ batchIds) ∧
      points.Nodup ∧ points = as.map fun a => (a.text "txid", a.nat "vout") := by
  apply foldlM_distinct_iff _ List.nodup_nil
  intro ids a ids'
  simp only [bind_ok, require_ok, exists_unit, pure, Except.pure, Except.ok.injEq]
  constructor
  · rintro ⟨hv, hn, hr, h⟩
    exact ⟨⟨hv, hr⟩, hn, h⟩
  · rintro ⟨⟨hv, hr⟩, hn, h⟩
    exact ⟨hv, hn, hr, h⟩

theorem validateSnapshot_iff : validateSnapshot (.obj fields) = .ok () ↔
    Json.hasFields fields snapshotFields = true ∧
    ((Json.obj fields).getD "schema" .null).eqStr snapshotSchema ∧
    ((Json.obj fields).getD "version" .null).eqInt snapshotVersion ∧
    ((Json.obj fields).getD "created_at" .null).isNatural ∧
    (∀ field ∈ (["records", "batches", "anchors"] : List PyStr),
      requireList (.obj fields) field = .ok ()) ∧
    (∃ id, calculateSnapshotId (.obj fields) = .ok id ∧
      ((Json.obj fields).getD "snapshot_id" .null).eqStr id) ∧
    Contents ((Json.obj fields).items "records") ((Json.obj fields).items "batches")
      ((Json.obj fields).items "anchors") := by
  simp only [validateSnapshot, validateTargets, bind_ok, require_ok, exists_unit, forM_ok,
    Packages.validateRecords_iff, validateBatches_iff, validateAnchors_iff, pure, Except.pure]
  constructor
  · rintro ⟨hf, ⟨hs, hv⟩, hc, hl, id, hid, he, _, ⟨hr, hrn, rfl⟩, ht, _, ⟨hb, hbn, rfl⟩, _,
      ⟨ha, han, rfl⟩, -⟩
    exact ⟨hf, hs, hv, hc, hl, ⟨id, hid, he⟩, hr, hrn, ht, fun b h => (hb b h).1, hbn,
      fun b h => (hb b h).2, fun a h => (ha a h).1, han, fun a h => (ha a h).2⟩
  · rintro ⟨hf, hs, hv, hc, hl, ⟨id, hid, he⟩, h⟩
    exact ⟨hf, ⟨hs, hv⟩, hc, hl, id, hid, he, _, ⟨h.records, h.recordIds, rfl⟩, h.targets, _,
      ⟨fun b hb => ⟨h.batches b hb, h.listed b hb⟩, h.batchIds, rfl⟩, _,
      ⟨fun a ha => ⟨h.anchors a ha, h.anchored a ha⟩, h.points, rfl⟩, trivial⟩

omit [Ed25519] in
theorem exists_calculateSnapshotId_iff {snapshot : Json} :
    (∃ id, calculateSnapshotId snapshot = .ok id) ↔ Encodes 0 (snapshotBody snapshot) := by
  rw [← Codec.exists_canonicalJsonBytes_iff]
  simp only [calculateSnapshotId, bind_ok]
  constructor
  · rintro ⟨_, bytes, h, -⟩
    exact ⟨bytes, h⟩
  · rintro ⟨bytes, h⟩
    exact ⟨_, bytes, h, rfl⟩

omit [Ed25519] in
theorem encodes_exportedMembers_iff {createdAt : ℤ} :
    Encodes 0 (.obj (exportedMembers createdAt rs bs as)) ↔
      (-Codec.maxSafeJsonInteger ≤ createdAt ∧ createdAt ≤ Codec.maxSafeJsonInteger) ∧
      (∀ r ∈ rs, Encodes 2 r) ∧ (∀ b ∈ bs, Encodes 2 b) ∧ ∀ a ∈ as, Encodes 2 a := by
  constructor
  · intro h
    cases h with
    | obj _ _ hkvs =>
      simp only [exportedMembers, List.forall_mem_cons] at hkvs
      obtain ⟨-, -, hcreated, hrs, hbs, has, -⟩ := hkvs
      cases hcreated with
      | int _ hn =>
        cases hrs with
        | arr _ hrs =>
          cases hbs with
          | arr _ hbs =>
            cases has with
            | arr _ has => exact ⟨hn, hrs, hbs, has⟩
  · rintro ⟨hn, hrs, hbs, has⟩
    apply Encodes.obj (by omega)
    · simp only [exportedMembers, List.forall_mem_cons]
      exact ⟨encodable_of_all (by decide), encodable_of_all (by decide),
        encodable_of_all (by decide), encodable_of_all (by decide), encodable_of_all (by decide),
        encodable_of_all (by decide), fun _ h => absurd h List.not_mem_nil⟩
    · simp only [exportedMembers, List.forall_mem_cons]
      exact ⟨.str (by omega) (encodable_of_all (by decide)), .int (by omega) (by decide),
        .int (by omega) hn, .arr (by omega) hrs, .arr (by omega) hbs, .arr (by omega) has,
        fun _ h => absurd h List.not_mem_nil⟩

theorem validateSnapshot_exported_iff {createdAt : ℤ} {id : PyStr} (hcreated : 0 ≤ createdAt)
    (hid : calculateSnapshotId (.obj (exportedMembers createdAt rs bs as)) = .ok id) :
    validateSnapshot (.obj (exportedMembers createdAt rs bs as ++
      ([("snapshot_id", .str id)] : List (PyStr × Json)))) = .ok () ↔ Contents rs bs as := by
  rw [validateSnapshot_iff]
  constructor
  · exact fun h => h.2.2.2.2.2.2
  · intro h
    refine ⟨rfl, Batches.eqStr_iff.mpr rfl, rfl, decide_eq_true hcreated, ?_,
      ⟨id, hid, Batches.eqStr_iff.mpr rfl⟩, h⟩
    simp only [List.forall_mem_cons]
    exact ⟨rfl, rfl, rfl, fun _ h => absurd h List.not_mem_nil⟩

omit [Ed25519] in
theorem encodes_get {d : ℕ} {v x : Json} {k : PyStr} (h : Encodes d v) (hx : v.get k = some x) :
    Encodes (d + 1) x := by
  cases h with
  | obj _ _ hkvs => exact hkvs _ (Json.mem_of_lookup hx)
  | _ => cases hx

omit [Ed25519] in
/-- An integer of an anchor in a snapshot with an identifier is one that JSON represents. -/
theorem anchor_int_safe {snapshot a : Json} {id k : PyStr} {n : ℤ}
    (hid : calculateSnapshotId snapshot = .ok id) (ha : a ∈ snapshot.items "anchors")
    (hn : a.get k = some (.int n)) :
    -Codec.maxSafeJsonInteger ≤ n ∧ n ≤ Codec.maxSafeJsonInteger := by
  have henc := exists_calculateSnapshotId_iff.mp ⟨id, hid⟩
  have hitems : (snapshotBody snapshot).get "anchors" = some (.arr (snapshot.items "anchors")) := by
    rw [snapshotBody, Json.get_erase, if_neg (by decide)]
    exact Json.items_ne_nil (List.ne_nil_of_mem ha)
  have hlist := encodes_get henc hitems
  cases hlist with
  | arr _ hxs =>
    cases encodes_get (hxs a ha) hn with
    | int _ h => exact h

end Archive

end HistoryAnchor

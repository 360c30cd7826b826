import HistoryAnchor.Evidence.Survival
import HistoryAnchor.Exchange.Export

/-! # Recovery from one archive

What a node exports has its members in another order once it has been written and
read back. The import of the archive accepts it if the import of the snapshot does,
and then restores the evidence that verified and the tables that were exported.
-/

namespace HistoryAnchor

open Python Effects Prog Tables

section Recovery

variable [Ed25519] {rpcAnswers : Answers} {s t : Store} {snapshot : Json}

/-- Import the evidence, then the snapshot; the evidence store is changed first. -/
def Service.importSurvivalArchive (reader : Survival.Reader) (archive : List Survival.Member)
    (maxEvidenceBytes maxMetadataBytes : ℤ) (e : EvidenceStore) :
    Node ((ℕ × ℕ × ℕ) × ℕ) × EvidenceStore :=
  match Survival.readMetadata reader archive maxMetadataBytes with
  | .error exc => (.raise exc, e)
  | .ok (snapshot, entries) =>
    match Survival.importEvidence reader archive maxEvidenceBytes entries [] 0 e with
    | (.error exc, e') => (.raise exc, e')
    | (.ok imported, e') => (do
        let result ← importSnapshot snapshot
        return (result, imported), e')

namespace Store

/-- The rows that an export lists: the records first seen and the last batches, ten million of
each at most. -/
def listedRecords (s : Store) : List Record := limited 10000000 s.records.rows

def listedBatches (s : Store) : List Batch := (limited 10000000 s.batches.rows.reverse).reverse

omit [Ed25519] in
theorem limited_eq {α : Type} {n : ℤ} {xs : List α} (h : (xs.length : ℤ) ≤ n) :
    limited n xs = xs := by
  rw [limited, if_neg (by omega), List.take_of_length_le (by omega)]

omit [Ed25519] in
theorem mem_of_mem_limited {α : Type} {n : ℤ} {xs : List α} {x : α} (h : x ∈ limited n xs) :
    x ∈ xs := by
  rw [limited] at h
  split_ifs at h
  · exact h
  · exact List.mem_of_mem_take h

theorem listedRecords_eq (h : s.records.rows.length ≤ 10000000) :
    s.listedRecords = s.records.rows :=
  limited_eq (by exact_mod_cast h)

theorem listedBatches_eq (h : s.batches.rows.length ≤ 10000000) :
    s.listedBatches = s.batches.rows := by
  rw [listedBatches, limited_eq, List.reverse_reverse]
  rw [List.length_reverse]
  exact_mod_cast h

end Store

theorem exportSnapshot_ok {s' : Store}
    (hx : Service.exportSnapshot.Exec (environment rpcAnswers) s (.ok snapshot) s') :
    ∃ createdAt snapshotId,
      snapshot = .obj (Archive.exportedMembers createdAt (s.listedRecords.map Record.body)
        (s.listedBatches.map Batch.body) (s.anchors.rows.map Anchor.json) ++
          ([("snapshot_id", .str snapshotId)] : List (PyStr × Json))) ∧
      Archive.validateSnapshot snapshot = .ok () := by
  have hexport : Service.exportSnapshot.Alone (environment rpcAnswers) (fun _ => True)
      (fun r _ => ∀ v, r = .ok v → ∃ createdAt snapshotId,
        v = .obj (Archive.exportedMembers createdAt (s.listedRecords.map Record.body)
          (s.listedBatches.map Batch.body) (s.anchors.rows.map Anchor.json) ++
            ([("snapshot_id", .str snapshotId)] : List (PyStr × Json))) ∧
        Archive.validateSnapshot v = .ok ()) s := by
    rw [Service.exportSnapshot, bind_eq, Alone, ensures_bind, now, ensures_perform]
    rintro _ rfl x s' ⟨⟨t, rfl⟩, rfl⟩
    refine ⟨trivial, ?_⟩
    simp only [thenOk_ok, bind_eq, ensures_bind, storage_ensures, forall_eq', Store.run,
      Store.query_ok (by decide : sqliteInt 10000000), ensures_ofExcept, true_and]
    set members := Archive.exportedMembers t _ _ _
    cases hid : Archive.calculateSnapshotId (.obj members) with
    | error e => rintro _ ⟨⟩
    | ok snapshotId =>
      simp only [thenOk_ok, ensures_bind, ensures_ofExcept]
      cases hv : Archive.validateSnapshot (.obj (members ++
          ([("snapshot_id", .str snapshotId)] : List (PyStr × Json)))) with
      | error e => rintro _ ⟨⟩
      | ok _ =>
        rintro v he
        obtain rfl := Except.ok.inj he
        exact ⟨t, snapshotId, rfl, hv⟩
  exact Ensures.exec (fun _ => rfl) hexport hx snapshot rfl

omit [Ed25519] in
theorem Anchor.json_wf (a : Anchor) : a.json.WF := by
  have hkeys : Anchors.anchorFields.Nodup := by decide
  refine ⟨hkeys, trivial, trivial, trivial, trivial, trivial, trivial, ?_, ?_, trivial⟩
  · cases a.blockHash <;> exact trivial
  · cases a.blockHeight <;> exact trivial

theorem exported_wf {createdAt : ℤ} {snapshotId : PyStr} (hd : s.Dicts) :
    (Json.obj (Archive.exportedMembers createdAt (s.listedRecords.map Record.body)
      (s.listedBatches.map Batch.body) (s.anchors.rows.map Anchor.json) ++
        ([("snapshot_id", .str snapshotId)] : List (PyStr × Json)))).WF := by
  have hkeys : Archive.snapshotFields.Nodup := by decide
  refine ⟨hkeys, trivial, trivial, trivial, ?_, ?_, ?_, trivial, trivial⟩
  · apply Json.wfList_iff.mpr
    exact List.forall_mem_map.mpr fun r hr => hd.records r (Store.mem_of_mem_limited hr)
  · apply Json.wfList_iff.mpr
    refine List.forall_mem_map.mpr fun b hb => hd.batches b ?_
    exact List.mem_reverse.mp (Store.mem_of_mem_limited (List.mem_reverse.mp hb))
  · exact Json.wfList_iff.mpr (List.forall_mem_map.mpr fun a _ => a.json_wf)

omit [Ed25519] in
theorem localReference_json {a : Anchor}
    (h : Anchors.validateAnchorReference a.json = .ok ()) :
    Service.localReference a.json.sortKeys none = { a with status := .unverified } := by
  obtain ⟨-, -, -, hanchored, -, -⟩ := validateAnchorReference_json_iff.mp h
  have hw := a.json_wf
  have hhash : a.json.get "block_hash" = some ((a.blockHash.map Json.str).getD .null) := rfl
  have hheight : a.json.get "block_height" = some ((a.blockHeight.map Json.int).getD .null) := rfl
  have htime : (a.json.nat "anchored_at" : ℤ) = a.anchoredAt := Int.toNat_of_nonneg hanchored
  simp only [Service.localReference, Json.text_sortKeys hw, Json.nat_sortKeys hw,
    Json.get_sortKeys hw, hhash, hheight, htime, Option.map_some]
  obtain ⟨txid, vout, batchId, network, status, anchoredAt, blockHash, blockHeight⟩ := a
  cases blockHash <;> cases blockHeight <;> rfl

omit [Ed25519] in
/-- Records in another order of their members wait for each other if they did before. -/
theorem Stuck.of_sortKeys {has : PyStr → Prop} {rs : List Json} {x : Json}
    (hrs : ∀ r ∈ rs, r.WF) (h : Stuck has (rs.map Json.sortKeys) x) : ∃ r, Stuck has rs r := by
  classical
  obtain ⟨X, hx, hsub, hwaits⟩ := h
  obtain ⟨r, hr, rfl⟩ := List.mem_map.mp (hsub hx)
  have hmem : ∀ y, y ∈ rs.filter (fun y => y.sortKeys ∈ X) ↔ y ∈ rs ∧ y.sortKeys ∈ X := by
    intro y
    rw [List.mem_filter, decide_eq_true_eq]
  refine ⟨r, rs.filter fun y => y.sortKeys ∈ X, (hmem r).mpr ⟨hr, hx⟩, fun y hy => ((hmem y).mp hy).1, ?_⟩
  intro y hy
  obtain ⟨hy, hyX⟩ := (hmem y).mp hy
  obtain ⟨hne, hnot, htarget⟩ := hwaits _ hyX
  rw [Json.text_sortKeys (hrs y hy)] at hne hnot htarget
  refine ⟨hne, hnot, ?_⟩
  obtain ⟨z, hz, he⟩ := List.mem_map.mp htarget
  obtain ⟨w, hw, rfl⟩ := List.mem_map.mp (hsub hz)
  rw [Json.text_sortKeys (hrs w hw)] at he
  exact List.mem_map.mpr ⟨w, (hmem w).mpr ⟨hw, hz⟩, he⟩

theorem Store.AcceptsWith.sortKeys {bs : List Json} {a : Json} (hbs : ∀ b ∈ bs, b.WF) (ha : a.WF)
    (h : Store.empty.AcceptsWith bs a) :
    Store.empty.AcceptsWith (bs.map Json.sortKeys) a.sortKeys := by
  constructor
  · exact fun b hb => absurd hb Table.not_mem_empty
  · intro _
    refine List.forall_mem_map.mpr fun b hb => ?_
    rw [Json.text_sortKeys (hbs b hb), Json.text_sortKeys (hbs b hb), Json.text_sortKeys ha,
      Json.text_sortKeys ha]
    exact h.listed (fun b hb => absurd hb Table.not_mem_empty) b hb
  · nofun

/-- Every exported snapshot can be archived with files of sizes that JSON represents. -/
theorem exists_survivalArchive {e : EvidenceStore} {s' : Store}
    (hx : Service.exportSnapshot.Exec (environment rpcAnswers) s (.ok snapshot) s')
    (hsize : ∀ f ∈ e, (f.content.length : ℤ) ≤ Codec.maxSafeJsonInteger) :
    ∃ x, Survival.exportSurvivalArchive snapshot e = .ok x := by
  obtain ⟨createdAt, snapshotId, hs, hv⟩ := exportSnapshot_ok hx
  have hid : snapshot.get "snapshot_id" = some (.str snapshotId) := hs ▸ rfl
  set members := Archive.exportedMembers createdAt (s.listedRecords.map Record.body)
    (s.listedBatches.map Batch.body) (s.anchors.rows.map Anchor.json)
  have hbody : Encodes 0 (.obj members) := by
    have h := Archive.exists_calculateSnapshotId_iff.mp (validateSnapshot_ok hv).1
    rw [hs] at h
    exact h
  have hencodable : Encodable snapshotId := by
    rw [hs] at hv
    obtain ⟨-, -, -, -, -, ⟨id, hcalculated, he⟩, -⟩ := Archive.validateSnapshot_iff.mp hv
    obtain ⟨bytes, -, hpure⟩ := bind_ok.mp hcalculated
    obtain rfl := Except.ok.inj hpure
    rw [Json.str.inj (Batches.eqStr_iff.mp he)]
    exact encodable_of_fromHex (fromHex_hex _)
  have hsnapshot : Encodes 0 snapshot := by
    rw [hs]
    cases hbody with
    | obj hd hk hvalues =>
      refine .obj hd (List.forall_mem_append.mpr ⟨hk, ?_⟩)
        (List.forall_mem_append.mpr ⟨hvalues, ?_⟩)
      · have hname : Encodable "snapshot_id" := encodable_of_all (by decide)
        exact List.forall_mem_singleton.mpr hname
      · exact List.forall_mem_singleton.mpr (.str (by omega) hencodable)
  obtain ⟨bytes, hbytes⟩ := Codec.exists_canonicalJsonBytes_iff.mpr hsnapshot
  exact Survival.exists_exportSurvivalArchive hid hbytes hsize

theorem empty_fits : ∀ a ∈ Store.empty.anchors, a.Fits := fun _ h => absurd h Table.not_mem_empty

theorem accepted_of_importSnapshot {x : ℕ × ℕ × ℕ}
    (hv : Archive.validateSnapshot snapshot = .ok ())
    (hx : (Service.importSnapshot snapshot).Exec (environment rpcAnswers) .empty (.ok x) t) :
    (∀ r, ¬ Stuck Store.empty.Has (snapshot.items "records") r) ∧
      ∀ a ∈ snapshot.items "anchors", Store.empty.AcceptsWith (snapshot.items "batches") a := by
  have hc := (validateSnapshot_ok hv).2
  obtain ⟨bs, hbs⟩ : ∃ bs : List Batch, bs.map Batch.body = snapshot.items "batches" :=
    ⟨(snapshot.items "batches").pmap Batch.mk hc.batches, by simp [List.map_pmap]⟩
  have himport : (Service.importSnapshot snapshot).Alone (environment rpcAnswers) (fun _ => True)
      (fun r _ => ∀ x, r = .ok x → (∀ r, ¬ Stuck Store.empty.Has (snapshot.items "records") r) ∧
        ∀ a ∈ snapshot.items "anchors", Store.empty.AcceptsWith (snapshot.items "batches") a)
      .empty := by
    apply importSnapshot_of hv hbs empty_fits
    · exact fun hfree hacc _ _ _ _ _ => ⟨hfree, hacc⟩
    · exact fun _ _ _ _ _ _ _ => nofun
    · exact fun _ _ _ _ _ _ => nofun
  exact Ensures.exec (fun _ => rfl) himport hx x rfl

/-- A valid snapshot whose records do not wait for each other and whose references are accepted is
accepted. -/
theorem exists_importSnapshot (c : Chain) (hv : Archive.validateSnapshot snapshot = .ok ())
    (hfree : ∀ r, ¬ Stuck Store.empty.Has (snapshot.items "records") r)
    (hacc : ∀ a ∈ snapshot.items "anchors",
      Store.empty.AcceptsWith (snapshot.items "batches") a) :
    ∃ x t, (Service.importSnapshot snapshot).Exec (environment c.truthful) .empty (.ok x) t := by
  have hc := (validateSnapshot_ok hv).2
  obtain ⟨bs, hbs⟩ : ∃ bs : List Batch, bs.map Batch.body = snapshot.items "batches" :=
    ⟨(snapshot.items "batches").pmap Batch.mk hc.batches, by simp [List.map_pmap]⟩
  have himport : (Service.importSnapshot snapshot).Alone (environment c.truthful) (fun _ => True)
      (fun r _ => ∃ x, r = .ok x) .empty := by
    apply importSnapshot_of hv hbs empty_fits
    · exact fun _ _ x _ _ => ⟨x, rfl⟩
    · exact fun _ hrefused => absurd hacc hrefused
    · exact fun ⟨r, hr⟩ => absurd hr (hfree r)
  have hx := exec_eval (H := environment c.truthful) (c.obeys_oracle fun _ _ _ => rfl)
    (Service.importSnapshot snapshot) .empty
  obtain ⟨x, he⟩ := Ensures.exec (fun _ => rfl) himport hx
  exact ⟨x, _, he ▸ hx⟩

theorem importSnapshot_sortKeys {bs : List Batch} (hw : snapshot.WF)
    (hv : Archive.validateSnapshot snapshot = .ok ())
    (hbs : bs.map Batch.body = (snapshot.items "batches").map Json.sortKeys)
    (hfree : ∀ r, ¬ Stuck Store.empty.Has (snapshot.items "records") r)
    (hacc : ∀ a ∈ snapshot.items "anchors",
      Store.empty.AcceptsWith (snapshot.items "batches") a) :
    (Service.importSnapshot snapshot.sortKeys).Alone (environment rpcAnswers) (fun _ => True)
      (fun r t => (∃ x, r = .ok x) ∧ Store.empty.Imported t
        ((snapshot.items "records").map Json.sortKeys) bs
        ((snapshot.items "anchors").map Json.sortKeys)) .empty := by
  have hitems : ∀ k, ∀ x ∈ snapshot.items k, x.WF := by
    intro k x hx
    exact Json.wfList_iff.mp (hw.get (Json.items_ne_nil (List.ne_nil_of_mem hx))) x hx
  have hfree' : ¬ ∃ r, Stuck Store.empty.Has ((snapshot.items "records").map Json.sortKeys) r := by
    rintro ⟨r, hr⟩
    obtain ⟨r, hr⟩ := hr.of_sortKeys (hitems _)
    exact hfree r hr
  have hacc' : ∀ a ∈ (snapshot.items "anchors").map Json.sortKeys,
      Store.empty.AcceptsWith ((snapshot.items "batches").map Json.sortKeys) a :=
    List.forall_mem_map.mpr fun a ha => (hacc a ha).sortKeys (hitems _) (hitems _ a ha)
  have himport := @importSnapshot_of _ rpcAnswers .empty snapshot.sortKeys bs
    (fun r t => (∃ x, r = .ok x) ∧ Store.empty.Imported t
      ((snapshot.items "records").map Json.sortKeys) bs
      ((snapshot.items "anchors").map Json.sortKeys)) (Archive.validateSnapshot_sortKeys hw hv)
  simp only [Json.items_sortKeys hw] at himport
  apply himport hbs empty_fits
  · exact fun _ _ x t ht => ⟨⟨x, rfl⟩, ht⟩
  · exact fun _ hrefused => absurd hacc' hrefused
  · exact fun hstuck => absurd hstuck hfree'

namespace Store

/-- The rows have the same bodies, as Python compares them. -/
def SameBodies (xs ys : List Json) : Prop :=
  (∀ x ∈ xs, ∃ y ∈ ys, y.same x = true) ∧ ∀ y ∈ ys, ∃ x ∈ xs, y.same x = true

/-- The listed rows are restored, and the anchors as unverified. -/
structure Restored (s t : Store) : Prop where
  records : SameBodies (s.listedRecords.map Record.body) (t.records.rows.map Record.body)
  batches : SameBodies (s.listedBatches.map Batch.body) (t.batches.rows.map Batch.body)
  anchors : ∀ a, a ∈ t.anchors ↔ ∃ b ∈ s.anchors, a = { b with status := .unverified }

omit [Ed25519] in
theorem sameBodies_of_sortKeys {xs ys : List Json} (hxs : ∀ x ∈ xs, x.WF)
    (h : ∀ y, y ∈ ys ↔ ∃ x ∈ xs, y = x.sortKeys) : SameBodies xs ys := by
  have hsame : ∀ x ∈ xs, x.sortKeys.same x = true := by
    intro x hx
    rw [Json.same_iff _ _ (Json.wf_sortKeys x (hxs x hx)) (hxs x hx), Json.sortKeys_sortKeys]
  constructor
  · exact fun x hx => ⟨x.sortKeys, (h _).mpr ⟨x, hx, rfl⟩, hsame x hx⟩
  · intro y hy
    obtain ⟨x, hx, rfl⟩ := (h y).mp hy
    exact ⟨x, hx, hsame x hx⟩

theorem nodup_batchIds {bs : List Batch} (hd : s.Dicts)
    (hbs : bs.map Batch.body = (s.listedBatches.map Batch.body).map Json.sortKeys) :
    (bs.map Batch.batchId).Nodup := by
  have hsub : s.listedBatches.Sublist s.batches.rows := by
    rw [← List.reverse_reverse s.batches.rows]
    apply List.Sublist.reverse
    rw [limited]
    split_ifs
    · exact List.Sublist.refl _
    · exact List.take_sublist _ _
  have hids : bs.map Batch.batchId = s.listedBatches.map Batch.batchId := by
    have htexts := congrArg (List.map (Json.text · "batch_id")) hbs
    rw [List.map_map, List.map_map, List.map_map] at htexts
    rw [show bs.map Batch.batchId = bs.map ((Json.text · "batch_id") ∘ Batch.body) from rfl, htexts]
    exact List.map_congr_left fun b hb => Json.text_sortKeys (hd.batches b (hsub.subset hb)) _
  rw [hids]
  exact (hsub.map Batch.batchId).nodup s.batches.nodup

theorem restored_of_imported {bs : List Batch} (hd : s.Dicts)
    (hanchors : ∀ a ∈ s.anchors, Anchors.validateAnchorReference a.json = .ok ())
    (hbs : bs.map Batch.body = (s.listedBatches.map Batch.body).map Json.sortKeys)
    (h : Store.empty.Imported t ((s.listedRecords.map Record.body).map Json.sortKeys) bs
      ((s.anchors.rows.map Anchor.json).map Json.sortKeys)) : s.Restored t := by
  have hrecords : ∀ r ∈ s.listedRecords, r ∈ s.records := fun r hr => mem_of_mem_limited hr
  have hbatches : ∀ b ∈ s.listedBatches, b ∈ s.batches := fun b hb =>
    List.mem_reverse.mp (mem_of_mem_limited (List.mem_reverse.mp hb))
  have hpoint : ∀ a ∈ s.anchors, refPoint a.json.sortKeys = a.point := by
    intro a ha
    rw [refPoint, Json.text_sortKeys a.json_wf, Json.nat_sortKeys a.json_wf]
    rfl
  have hrow : ∀ a ∈ s.anchors, t.anchors.find? a.point = some { a with status := .unverified } := by
    intro a ha
    have hfind := h.anchors a.json.sortKeys (List.mem_map_of_mem (List.mem_map_of_mem ha))
    rw [hpoint a ha] at hfind
    exact hfind.trans (congrArg some (localReference_json (hanchors a ha)))
  constructor
  · apply sameBodies_of_sortKeys
    · exact List.forall_mem_map.mpr fun r hr => hd.records r (hrecords r hr)
    · have hnew : ∀ row ∈ t.records, ∃ r ∈ s.listedRecords, row.body = r.body.sortKeys := by
        intro row hrow
        rcases h.new row hrow with hrow | hrow
        · exact absurd hrow Table.not_mem_empty
        · obtain ⟨v, hv, he⟩ := List.mem_map.mp hrow
          obtain ⟨r, hr, rfl⟩ := List.mem_map.mp hv
          exact ⟨r, hr, he.symm⟩
      have hid : ∀ r ∈ s.listedRecords, r.body.sortKeys.text "record_id" = r.recordId :=
        fun r hr => Json.text_sortKeys (hd.records r (hrecords r hr)) _
      intro v
      constructor
      · intro hv
        obtain ⟨row, hrow, rfl⟩ := List.mem_map.mp hv
        obtain ⟨r, hr, he⟩ := hnew row hrow
        exact ⟨r.body, List.mem_map_of_mem hr, he⟩
      · rintro ⟨w, hw, rfl⟩
        obtain ⟨r, hr, rfl⟩ := List.mem_map.mp hw
        obtain ⟨row, hrow, hk⟩ := h.has r.body.sortKeys (List.mem_map_of_mem hw)
        obtain ⟨r', hr', he⟩ := hnew row hrow
        have hkey : r'.recordId = r.recordId := by
          rw [← hid r' hr', ← hid r hr, ← hk, ← he]
          rfl
        obtain rfl := Table.eq_of_key (hrecords r' hr') (hrecords r hr) hkey
        exact List.mem_map.mpr ⟨row, hrow, he⟩
  · apply sameBodies_of_sortKeys
    · exact List.forall_mem_map.mpr fun b hb => hd.batches b (hbatches b hb)
    · have hmem : ∀ b, b ∈ t.batches ↔ b ∈ bs := by
        intro b
        rw [h.batches, Table.mem_insertAll_of_nodup (nodup_batchIds hd hbs)]
        constructor
        · rintro (hb | ⟨hb, -⟩)
          · exact absurd hb Table.not_mem_empty
          · exact hb
        · exact fun hb => Or.inr ⟨hb, fun c hc => absurd hc Table.not_mem_empty⟩
      intro v
      have hv : v ∈ t.batches.rows.map Batch.body ↔ v ∈ bs.map Batch.body := by
        rw [List.mem_map, List.mem_map]
        exact exists_congr fun b => and_congr_left fun _ => hmem b
      rw [hv, hbs, List.mem_map]
      exact exists_congr fun w => and_congr_right fun _ => eq_comm
  · intro a
    constructor
    · intro ha
      by_cases hp : a.point ∈ ((s.anchors.rows.map Anchor.json).map Json.sortKeys).map refPoint
      · obtain ⟨v, hv, he⟩ := List.mem_map.mp hp
        obtain ⟨w, hw, rfl⟩ := List.mem_map.mp hv
        obtain ⟨b, hb, rfl⟩ := List.mem_map.mp hw
        rw [hpoint b hb] at he
        have hfind : t.anchors.find? b.point = some a := Table.find?_eq_some.mpr ⟨ha, he.symm⟩
        exact ⟨b, hb, Option.some.inj (hfind.symm.trans (hrow b hb))⟩
      · have hfind : t.anchors.find? a.point = some a := Table.find?_eq_some.mpr ⟨ha, rfl⟩
        rw [h.other _ hp] at hfind
        cases hfind
    · rintro ⟨b, hb, rfl⟩
      exact (Table.find?_eq_some.mp (hrow b hb)).1

end Store

/-- The archive of a node restores on an empty node the evidence that verified and everything the
node exports, provided that the exported snapshot is accepted by the import of snapshots. -/
theorem survival_archive_recovers {reader : Survival.Reader} {e : EvidenceStore}
    {manifest : Json} {archive : List Survival.Member} {maxEvidenceBytes maxMetadataBytes : ℤ}
    {s' t₀ : Store} {x : ℕ × ℕ × ℕ} (hd : s.Dicts)
    (hexport : Service.exportSnapshot.Exec (environment rpcAnswers) s (.ok snapshot) s')
    (haccept : (Service.importSnapshot snapshot).Exec (environment rpcAnswers) .empty (.ok x) t₀)
    (harchive : Survival.exportSurvivalArchive snapshot e = .ok (manifest, archive))
    (hlimits : Survival.Within archive maxEvidenceBytes maxMetadataBytes) :
    (∀ f, f ∈ (Service.importSurvivalArchive reader archive maxEvidenceBytes maxMetadataBytes
        Table.empty).2 ↔ f ∈ e ∧ e.verify (.str f.name) = .ok true) ∧
      ∀ r t, (Service.importSurvivalArchive reader archive maxEvidenceBytes maxMetadataBytes
        Table.empty).1.Exec (environment rpcAnswers) .empty r t →
          (∃ y, r = .ok y) ∧ s.Restored t ∧
          (s.records.rows.length ≤ 10000000 → Store.SameBodies
            (s.records.rows.map Record.body) (t.records.rows.map Record.body)) ∧
          (s.batches.rows.length ≤ 10000000 → Store.SameBodies
            (s.batches.rows.map Batch.body) (t.batches.rows.map Batch.body)) := by
  obtain ⟨createdAt, snapshotId, hsnapshot, hv⟩ := exportSnapshot_ok hexport
  have hw : snapshot.WF := hsnapshot ▸ exported_wf hd
  obtain ⟨hfree, hacc⟩ := accepted_of_importSnapshot hv haccept
  obtain ⟨entries, imported, e', hread, hevidence, hmem⟩ :=
    @Survival.survivalArchive_ok _ _ reader _ _ _ _ hw harchive hlimits
  have hc := (validateSnapshot_ok hv).2
  have hc' := (validateSnapshot_ok (Archive.validateSnapshot_sortKeys hw hv)).2
  simp only [Json.items_sortKeys hw] at hc'
  obtain ⟨bs, hbs⟩ : ∃ bs : List Batch,
      bs.map Batch.body = (snapshot.items "batches").map Json.sortKeys :=
    ⟨((snapshot.items "batches").map Json.sortKeys).pmap Batch.mk hc'.batches,
      by simp [List.map_pmap]⟩
  have hrecords : snapshot.items "records" = s.listedRecords.map Record.body := hsnapshot ▸ rfl
  have hbatches : snapshot.items "batches" = s.listedBatches.map Batch.body := hsnapshot ▸ rfl
  have hanchors : snapshot.items "anchors" = s.anchors.rows.map Anchor.json := hsnapshot ▸ rfl
  simp only [Service.importSurvivalArchive, hread, hevidence]
  refine ⟨hmem, fun r t hx => ?_⟩
  have himport : (Service.importSnapshot snapshot.sortKeys).Alone (environment rpcAnswers)
      (fun _ => True) (fun r t => (∃ y, r = .ok y) ∧ s.Restored t) .empty := by
    refine (importSnapshot_sortKeys hw hv hbs hfree hacc).post fun r t ⟨hok, ht⟩ => ⟨hok, ?_⟩
    rw [hrecords, hanchors] at ht
    rw [hbatches] at hbs
    refine Store.restored_of_imported hd (fun a ha => ?_) hbs ht
    exact hc.anchors a.json (hanchors ▸ List.mem_map_of_mem ha)
  have hall : (do
      let result ← Service.importSnapshot snapshot.sortKeys
      return (result, imported) : Node ((ℕ × ℕ × ℕ) × ℕ)).Alone (environment rpcAnswers)
        (fun _ => True) (fun r t => (∃ y, r = .ok y) ∧ s.Restored t) .empty := by
    simp only [bind_eq, Alone, ensures_bind]
    refine himport.post ?_
    rintro _ t ⟨⟨y, rfl⟩, ht⟩
    exact ⟨⟨_, rfl⟩, ht⟩
  obtain ⟨hok, ht⟩ := Ensures.exec (fun _ => rfl) hall hx
  refine ⟨hok, ht, fun h => ?_, fun h => ?_⟩
  · rw [← Store.listedRecords_eq h]
    exact ht.records
  · rw [← Store.listedBatches_eq h]
    exact ht.batches

end Recovery

section Witness

attribute [local instance] conformanceKeys

/-- One file that verifies, without bytes. -/
def sampleEvidence : EvidenceStore where
  rows := [⟨Codec.sha256Hex [], [], sha256 [], by decide +kernel, rfl⟩]
  nodup := List.nodup_singleton _

def sampleReader : Survival.Reader := ⟨⟨fun _ => none, fun _ => none⟩, fun _ => []⟩

theorem survival_archive_recovers_sample : ∃ snapshot manifest archive,
    Survival.exportSurvivalArchive snapshot sampleEvidence = .ok (manifest, archive) ∧
    ∃ limit : ℤ, ∀ r t, (Service.importSurvivalArchive sampleReader archive limit limit
      Table.empty).1.Exec (environment sampleOld.truthful) .empty r t →
        (∃ y, r = .ok y) ∧ conformanceStore.Restored t := by
  have hx := exec_eval sampleOld.obeys_dated Service.exportSnapshot conformanceStore
  obtain ⟨snapshot, he⟩ := (Ensures.exec (fun _ => rfl)
    (exportSnapshot_alone portableRuns_conformanceStore.nodeRuns.closed conformanceStore_dicts
      (by decide) (by decide)) hx).mpr portableRuns_conformanceStore.exportable
  rw [he] at hx
  have hexport : Service.exportSnapshot.Exec (environment sampleOld.truthful) conformanceStore
      (.ok snapshot) _ := hx.mono fun _ _ _ _ _ h => h.1
  obtain ⟨_, _, hs, hv⟩ := exportSnapshot_ok hexport
  have hrecords : snapshot.items "records" = [conformanceRecord] := hs ▸ rfl
  have hanchors : snapshot.items "anchors" = [] := hs ▸ rfl
  obtain ⟨x, t₀, haccept⟩ := exists_importSnapshot sampleOld hv
    (by
      rw [hrecords]
      intro r hr
      obtain ⟨hm, hne, -⟩ := hr.waits
      exact hne (List.mem_singleton.mp hm ▸ rfl))
    (by
      rw [hanchors]
      exact fun _ h => absurd h List.not_mem_nil)
  obtain ⟨⟨manifest, archive⟩, harchive⟩ := @exists_survivalArchive _ _ _ _ sampleEvidence _ hexport
    (fun f hf => by
      rw [List.mem_singleton.mp hf]
      decide)
  obtain ⟨limit, hlimit⟩ : ∃ limit : ℤ, ∀ m ∈ archive, m.size ≤ limit :=
    ⟨(archive.map Survival.Member.size).foldr max 0, fun m hm =>
      List.le_max_of_le' 0 (List.mem_map_of_mem hm) le_rfl⟩
  refine ⟨snapshot, manifest, archive, harchive, limit, fun r t hr => ?_⟩
  obtain ⟨hok, ht, -⟩ := (survival_archive_recovers conformanceStore_dicts hexport haccept harchive
    ⟨fun m hm _ => hlimit m hm, fun m hm _ _ => hlimit m hm⟩).2 r t hr
  exact ⟨hok, ht⟩

end Witness

end HistoryAnchor

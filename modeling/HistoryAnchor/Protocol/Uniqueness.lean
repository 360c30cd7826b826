import HistoryAnchor.Protocol.Packages
import HistoryAnchor.Python.Equality

/-! # One package for one commitment

Where the hashed manifests and envelopes do not collide, the identifier of a batch
determines its package up to two values that no hash and no exact check pins: the
spelling of the payload, and a version that only equals one.
-/

namespace Python.Json

variable {kvs lws : List (PyStr × Json)} {k : PyStr} {x : Json}

theorem WF.get {v : Json} (h : v.WF) (hk : v.get k = some x) : x.WF := by
  cases v with
  | obj kvs => exact wfMembers_iff.mp h.2 _ (mem_of_lookup hk)
  | _ => cases hk

theorem nodup_keys_filter (h : (kvs.map Prod.fst).Nodup) (k : PyStr) :
    ((kvs.filter fun kv => kv.1 ≠ k).map Prod.fst).Nodup :=
  h.sublist (List.filter_sublist.map Prod.fst)

/-- Objects that agree under a key and without it are equal up to the order of members. -/
theorem sortKeys_eq_of_erase (hk : (kvs.map Prod.fst).Nodup) (hl : (lws.map Prod.fst).Nodup)
    (herase : ((obj kvs).erase k).sortKeys = ((obj lws).erase k).sortKeys)
    (hget : kvs.lookup k = lws.lookup k) : (obj kvs).sortKeys = (obj lws).sortKeys := by
  have hrest := (sortKeys_obj_eq_iff (nodup_keys_filter hk k) (nodup_keys_filter hl k)).mp herase
  refine (sortKeys_obj_eq_iff hk hl).mpr fun l => ?_
  by_cases he : l = k
  · rw [he, hget]
  · have hl' := hrest l
    rwa [lookup_filter_ne, lookup_filter_ne, if_neg he, if_neg he] at hl'

theorem sortKeys_of_eqInt {n : ℤ} (h : x.eqInt n = true) : x.sortKeys = x := by
  cases x with
  | arr | obj => cases h
  | _ => rfl

end Python.Json

namespace HistoryAnchor

open Python

theorem Codec.canonicalJsonBytes_congr {v w : Json} {b b' : Bytes} (h : v.sortKeys = w.sortKeys)
    (hv : canonicalJsonBytes v = .ok b) (hw : canonicalJsonBytes w = .ok b') : b = b' := by
  have hb := (canonicalJsonBytes_ok hv).2
  rw [h, (canonicalJsonBytes_ok hw).2] at hb
  exact (Option.some.inj hb).symm

section Unique

variable [Ed25519] {S : Set Bytes}

namespace Records

theorem sortKeys_eq_of_recordId (hS : Set.InjOn sha256 S) {r r' : Json} (hw : r.WF) (hw' : r'.WF)
    (hr : validateRecord r true = .ok ()) (hr' : validateRecord r' true = .ok ())
    (hm : ∀ m, Codec.canonicalJsonBytes (envelopeForId r) = .ok m → m ∈ S)
    (hm' : ∀ m, Codec.canonicalJsonBytes (envelopeForId r') = .ok m → m ∈ S)
    (he : r.text "record_id" = r'.text "record_id") : r.sortKeys = r'.sortKeys := by
  obtain ⟨fields, id, rfl, -, hid, hc⟩ := validateRecord_ok hr
  obtain ⟨fields', id', rfl, -, hid', hc'⟩ := validateRecord_ok hr'
  obtain rfl : id = id' := by simpa only [Json.text, hid, hid'] using he
  simp only [calculateRecordId, bind_ok] at hc hc'
  obtain ⟨m, hb, hx⟩ := hc
  obtain ⟨m', hb', hx'⟩ := hc'
  obtain rfl : m = m' := hS (hm m hb) (hm' m' hb')
    (hex_injective ((Except.ok.inj hx).trans (Except.ok.inj hx').symm))
  exact Json.sortKeys_eq_of_erase hw.1 hw'.1 (Codec.canonicalJsonBytes_inj hb hb')
    (hid.trans hid'.symm)

end Records

namespace Packages

/-- The bytes whose hashes name the batch and the records of a package. -/
def hashedBytes (package : Json) : Set Bytes :=
  {m | Batches.manifestBytes (package.getD "batch" .null) = .ok m ∨
    ∃ r ∈ package.items "records", Codec.canonicalJsonBytes (Records.envelopeForId r) = .ok m}

variable {p q b b' : Json} {rs rs' : List Json} {id id' : PyStr}

theorem Facts.getD_batch (h : Facts p b rs id) : p.getD "batch" .null = b := by
  rw [Json.getD, h.batch, Option.getD_some]

theorem Facts.items_records (h : Facts p b rs id) : p.items "records" = rs := by
  rw [Json.items, h.records]

omit [Ed25519] in
/-- Batches with one identifier and one spelling of the payload are equal up to the order of
members. -/
theorem sortKeys_batch_eq (hS : Set.InjOn sha256 S) (hw : b.WF) (hw' : b'.WF)
    (hv : Batches.validateBatch b = .ok ()) (hv' : Batches.validateBatch b' = .ok ())
    (hm : ∀ m, Batches.manifestBytes b = .ok m → m ∈ S)
    (hm' : ∀ m, Batches.manifestBytes b' = .ok m → m ∈ S)
    (he : b.text "batch_id" = b'.text "batch_id") :
    (b.sortKeys = b'.sortKeys ↔ b.text "payload_hex" = b'.text "payload_hex") ∧
      b.get "record_ids" = b'.get "record_ids" := by
  obtain ⟨ids, batchId, payload, h⟩ := Batches.validateBatch_ok hv
  obtain ⟨ids', batchId', payload', h'⟩ := Batches.validateBatch_ok hv'
  obtain rfl : batchId = batchId' := by simpa only [Json.text, h.batchId, h'.batchId] using he
  obtain ⟨kvs, rfl, -⟩ := h.fields
  obtain ⟨lws, rfl, -⟩ := h'.fields
  have hget : ∀ k : PyStr, k ≠ "batch_id" → k ≠ "payload_hex" →
      (kvs.lookup k).map Json.sortKeys = (lws.lookup k).map Json.sortKeys := fun k hb hp =>
    Batches.get_eq_of_batchId hS hw.1 hw'.1 h.calculated h'.calculated hm hm' hb hp
  have hids := hget "record_ids" (by decide) (by decide)
  have hpay : Json.text (.obj kvs) "payload_hex" = payload ∧
      Json.text (.obj lws) "payload_hex" = payload' := by
    simp only [Json.text, h.payloadHex, h'.payloadHex, and_self]
  rw [hpay.1, hpay.2]
  refine ⟨?_, ?_⟩
  · rw [Json.sortKeys_obj_eq_iff hw.1 hw'.1]
    constructor
    · intro hall
      have hx := hall "payload_hex"
      rw [show kvs.lookup _ = _ from h.payloadHex, show lws.lookup _ = _ from h'.payloadHex] at hx
      simpa [Json.sortKeys] using hx
    · rintro rfl k
      by_cases hb : k = "batch_id"
      · rw [hb, show kvs.lookup _ = _ from h.batchId, show lws.lookup _ = _ from h'.batchId]
      by_cases hp : k = "payload_hex"
      · rw [hp, show kvs.lookup _ = _ from h.payloadHex, show lws.lookup _ = _ from h'.payloadHex]
      exact hget k hb hp
  · rw [show kvs.lookup _ = _ from h.recordIds, show lws.lookup _ = _ from h'.recordIds] at hids
    simp only [Option.map_some, Json.sortKeys, Json.sortKeysList_eq, List.map_map,
      Option.some.injEq, Json.arr.injEq] at hids
    rw [h.recordIds, h'.recordIds]
    exact congrArg (fun xs => some (Json.arr xs)) hids

theorem map_sortKeys_records_eq (hS : Set.InjOn sha256 S) (hw : ∀ r ∈ rs, r.WF)
    (hw' : ∀ r ∈ rs', r.WF) (hr : ∀ r ∈ rs, Records.validateRecord r true = .ok ())
    (hr' : ∀ r ∈ rs', Records.validateRecord r true = .ok ())
    (hm : ∀ r ∈ rs, ∀ m, Codec.canonicalJsonBytes (Records.envelopeForId r) = .ok m → m ∈ S)
    (hm' : ∀ r ∈ rs', ∀ m, Codec.canonicalJsonBytes (Records.envelopeForId r) = .ok m → m ∈ S)
    (he : rs.map (Json.text · "record_id") = rs'.map (Json.text · "record_id")) :
    rs.map Json.sortKeys = rs'.map Json.sortKeys := by
  induction rs generalizing rs' with
  | nil =>
    rw [List.map_nil, eq_comm, List.map_eq_nil_iff] at he
    rw [he]
  | cons r rs ih =>
    cases rs' with
    | nil => cases he
    | cons r' rs' =>
      simp only [List.mem_cons, forall_eq_or_imp] at hw hw' hr hr' hm hm'
      obtain ⟨h₁, h₂⟩ := List.cons.inj he
      rw [List.map_cons, List.map_cons, ih hw.2 hw'.2 hr.2 hr'.2 hm.2 hm'.2 h₂,
        Records.sortKeys_eq_of_recordId hS hw.1 hw'.1 hr.1 hr'.1 hm.1 hm'.1 h₁]

theorem sortKeys_packageBody_eq {fs gs : List (PyStr × Json)} (hk : (fs.map Prod.fst).Nodup)
    (hl : (gs.map Prod.fst).Nodup) (h : Facts (.obj fs) b rs id) (h' : Facts (.obj gs) b' rs' id')
    (hv : (Json.obj fs).get "version" = (Json.obj gs).get "version") (hb : b.sortKeys = b'.sortKeys)
    (hrs : rs.map Json.sortKeys = rs'.map Json.sortKeys) :
    (packageBody (.obj fs)).sortKeys = (packageBody (.obj gs)).sortKeys := by
  obtain ⟨_, hfs, hf⟩ := h.fields
  obtain rfl := Json.obj.inj hfs
  obtain ⟨_, hgs, hg⟩ := h'.fields
  obtain rfl := Json.obj.inj hgs
  refine (Json.sortKeys_obj_eq_iff (Json.nodup_keys_filter hk _)
    (Json.nodup_keys_filter hl _)).mpr fun k => ?_
  rw [Json.lookup_filter_ne, Json.lookup_filter_ne]
  split_ifs with he
  · rfl
  by_cases hmem : k ∈ packageFields
  · simp only [packageFields, List.mem_cons, List.not_mem_nil, or_false] at hmem
    rcases hmem with rfl | rfl | rfl | rfl | rfl
    · rw [show fs.lookup _ = _ from h.schema, show gs.lookup _ = _ from h'.schema]
    · rw [show fs.lookup _ = gs.lookup _ from hv]
    · rw [show fs.lookup _ = _ from h.batch, show gs.lookup _ = _ from h'.batch,
        Option.map_some, Option.map_some, hb]
    · rw [show fs.lookup _ = _ from h.records, show gs.lookup _ = _ from h'.records,
        Option.map_some, Option.map_some, Json.sortKeys, Json.sortKeys, Json.sortKeysList_eq,
        Json.sortKeysList_eq, hrs]
    · exact absurd rfl he
  · have hnone : ∀ ms : List (PyStr × Json), Json.hasFields ms packageFields = true →
        ms.lookup k = none := fun ms hms =>
      Option.eq_none_iff_forall_not_mem.mpr fun x hx =>
        hmem (Json.mem_of_get_of_hasFields hms hx)
    rw [hnone fs hf, hnone gs hg]

/-- Two accepted packages for one batch identifier are the same JSON value exactly if they spell the
payload in the same way and carry the same value as their version. -/
theorem package_unique_iff (hp : p.WF) (hq : q.WF) (hvp : validatePackage p = .ok ())
    (hvq : validatePackage q = .ok ())
    (hid : (p.getD "batch" .null).text "batch_id" = (q.getD "batch" .null).text "batch_id")
    (hS : Set.InjOn sha256 (hashedBytes p ∪ hashedBytes q)) :
    p.sortKeys = q.sortKeys ↔
      (p.getD "batch" .null).text "payload_hex" = (q.getD "batch" .null).text "payload_hex" ∧
        p.get "version" = q.get "version" := by
  obtain ⟨b, rs, i, h⟩ := validatePackage_ok hvp
  obtain ⟨b', rs', i', h'⟩ := validatePackage_ok hvq
  have hbytes : ∀ m, Batches.manifestBytes b = .ok m → m ∈ hashedBytes p ∪ hashedBytes q :=
    fun m hm => Or.inl (Or.inl (h.getD_batch.symm ▸ hm))
  have hbytes' : ∀ m, Batches.manifestBytes b' = .ok m → m ∈ hashedBytes p ∪ hashedBytes q :=
    fun m hm => Or.inr (Or.inl (h'.getD_batch.symm ▸ hm))
  have henv : ∀ r ∈ rs, ∀ m, Codec.canonicalJsonBytes (Records.envelopeForId r) = .ok m →
      m ∈ hashedBytes p ∪ hashedBytes q :=
    fun r hr m hm => Or.inl (Or.inr ⟨r, h.items_records.symm ▸ hr, hm⟩)
  have henv' : ∀ r ∈ rs', ∀ m, Codec.canonicalJsonBytes (Records.envelopeForId r) = .ok m →
      m ∈ hashedBytes p ∪ hashedBytes q :=
    fun r hr m hm => Or.inr (Or.inr ⟨r, h'.items_records.symm ▸ hr, hm⟩)
  rw [h.getD_batch, h'.getD_batch] at hid ⊢
  obtain ⟨hbatch, hids⟩ := sortKeys_batch_eq hS (hp.get h.batch) (hq.get h'.batch) h.validBatch
    h'.validBatch hbytes hbytes' hid
  have hrecords : rs.map Json.sortKeys = rs'.map Json.sortKeys := by
    refine map_sortKeys_records_eq hS (Json.wfList_iff.mp (hp.get h.records))
      (Json.wfList_iff.mp (hq.get h'.records)) h.validRecords h'.validRecords henv henv' ?_
    rw [h.ids, h'.ids, Json.items, Json.items, hids]
  obtain ⟨fs, rfl, hfs⟩ := h.fields
  obtain ⟨gs, rfl, hgs⟩ := h'.fields
  obtain ⟨v, hv⟩ := Json.get_of_hasFields hfs (k := "version") (by decide)
  obtain ⟨v', hv'⟩ := Json.get_of_hasFields hgs (k := "version") (by decide)
  have hversion := h.version
  have hversion' := h'.version
  rw [Json.getD, hv, Option.getD_some] at hversion
  rw [Json.getD, hv', Option.getD_some] at hversion'
  rw [← hbatch, hv, hv', Option.some.injEq]
  constructor
  · intro hall
    rw [Json.sortKeys_obj_eq_iff hp.1 hq.1] at hall
    have hb := hall "batch"
    have hver := hall "version"
    rw [show fs.lookup _ = _ from h.batch, show gs.lookup _ = _ from h'.batch] at hb
    rw [show fs.lookup _ = _ from hv, show gs.lookup _ = _ from hv', Option.map_some,
      Option.map_some, Json.sortKeys_of_eqInt hversion, Json.sortKeys_of_eqInt hversion'] at hver
    exact ⟨Option.some.inj hb, Option.some.inj hver⟩
  · rintro ⟨hb, rfl⟩
    have hbody := sortKeys_packageBody_eq hp.1 hq.1 h h' (hv.trans hv'.symm) hb hrecords
    have hc := h.calculated
    have hc' := h'.calculated
    simp only [calculatePackageId, bind_ok] at hc hc'
    obtain ⟨m, hm, hi⟩ := hc
    obtain ⟨m', hm', hi'⟩ := hc'
    obtain rfl := Codec.canonicalJsonBytes_congr hbody hm hm'
    refine Json.sortKeys_eq_of_erase (k := "package_id") hp.1 hq.1 hbody ?_
    rw [show fs.lookup _ = _ from h.packageId, show gs.lookup _ = _ from h'.packageId,
      Except.ok.inj (hi.symm.trans hi')]

end Packages

end Unique

section Conformance

attribute [local instance] conformanceKeys

/-- The batch of the conformance vector with its payload spelled as given. -/
def spelledBatch (payloadHex : PyStr) : Json :=
  .obj [
    ("schema", .str "hap.batch"), ("version", .int 3), ("created_at", .int 1721332920),
    ("network", .str "signet"), ("record_count", .int 1),
    ("record_ordering", .str "record_id_lexicographic_v1"),
    ("record_ids",
      .arr [.str "fe4fd10287faaea0736fe25fb849264527c0387bc8968786a9c19d8fa5aefeb5"]),
    ("merkle_root", .str "fe4fd10287faaea0736fe25fb849264527c0387bc8968786a9c19d8fa5aefeb5"),
    ("algorithms", .obj [
      ("record_id", .str "sha256"), ("batch_id", .str "sha256"),
      ("merkle_parent", .str "sha256(left||right)"),
      ("canonical_json", .str "hap-canonical-json-v1")]),
    ("batch_id", .str "5ca8c08e0aefbc9ecced864f9499b9f7c2b8af326257f6de2f9dd5488ba356fd"),
    ("payload_hex", .str payloadHex)]

def spelledPackage (payloadHex packageId : PyStr) : Json :=
  .obj [
    ("schema", .str "hap.package"), ("version", .int 1), ("batch", spelledBatch payloadHex),
    ("records", .arr [conformanceRecord]), ("package_id", .str packageId)]

def lowerPayload : PyStr :=
  "4849535403015ca8c08e0aefbc9ecced864f9499b9f7c2b8af326257f6de2f9dd5488ba356fd"

def upperPayload : PyStr :=
  "4849535403015CA8C08E0AEFBC9ECCED864F9499B9F7C2B8AF326257F6DE2F9DD5488BA356FD"

def lowerPackage : Json := spelledPackage lowerPayload
  "d07f51954ea7ff2af953bd49d01b51084035d05a0f59e807b407a9eda70dae7f"

def upperPackage : Json := spelledPackage upperPayload
  "2535d00198ae6debb50861581a40884bde171be9a35b0ea2c86bdeeea6082385"

theorem spelledPackage_batchId (payloadHex packageId : PyStr) :
    ((spelledPackage payloadHex packageId).getD "batch" .null).text "batch_id" =
      ascii "5ca8c08e0aefbc9ecced864f9499b9f7c2b8af326257f6de2f9dd5488ba356fd" := rfl

theorem spelledPackage_payloadHex (payloadHex packageId : PyStr) :
    ((spelledPackage payloadHex packageId).getD "batch" .null).text "payload_hex" = payloadHex := rfl

theorem spelledPackage_wf (payloadHex packageId : PyStr) :
    (spelledPackage payloadHex packageId).WF := by
  simp only [spelledPackage, spelledBatch, conformanceRecord, conformanceSource,
    conformanceEvidence, Json.WF, Json.WFMembers, Json.WFList, List.map_cons, List.map_nil,
    and_true, true_and]
  decide

theorem spelledPackage_valid {payloadHex packageId : PyStr}
    (hb : Batches.validateBatch (spelledBatch payloadHex) = .ok ())
    (hc : Packages.calculatePackageId (spelledPackage payloadHex packageId) = .ok packageId) :
    Packages.validatePackage (spelledPackage payloadHex packageId) = .ok () := by
  have hrecords : Packages.validateRecords .packageValidationError
      "package contains a duplicate record" [conformanceRecord] =
        .ok [conformanceRecord.text "record_id"] := by
    simp only [Packages.validateRecords, List.foldlM_cons, List.foldlM_nil, bind_ok, require_ok,
      exists_unit]
    exact ⟨_, ⟨conformanceRecord_valid, List.not_mem_nil, rfl⟩, rfl⟩
  have hid : (Json.str packageId).eqStr packageId = true := decide_eq_true rfl
  exact Packages.validatePackage_iff.mpr ⟨spelledBatch payloadHex, [conformanceRecord], _, _, rfl,
    rfl, rfl, rfl, rfl, hb, rfl, List.cons_ne_nil _ _, rfl, hrecords, rfl, hc, hid⟩

theorem lowerPackage_valid : Packages.validatePackage lowerPackage = .ok () := by
  apply spelledPackage_valid conformanceBatch_valid
  simp only [Packages.calculatePackageId, Codec.sha256Hex, sha256_eq_words]
  decide +kernel

theorem upperPackage_valid : Packages.validatePackage upperPackage = .ok () := by
  apply spelledPackage_valid
  · simp only [Batches.validateBatch, Batches.validateIdentity, Batches.calculateBatchId,
      Codec.sha256Hex, sha256_eq_words]
    decide +kernel
  · simp only [Packages.calculatePackageId, Codec.sha256Hex, sha256_eq_words]
    decide +kernel

/-- The bytes hashed in the two packages are one manifest and one envelope, with distinct hashes. -/
theorem injOn_spelledPackages : Set.InjOn sha256
    (Packages.hashedBytes lowerPackage ∪ Packages.hashedBytes upperPackage) := by
  have hcases : ∀ m ∈ Packages.hashedBytes lowerPackage ∪ Packages.hashedBytes upperPackage,
      Batches.manifestBytes conformanceBatch = .ok m ∨
        Codec.canonicalJsonBytes (Records.envelopeForId conformanceRecord) = .ok m := by
    rintro m ((hm | ⟨r, hr, hm⟩) | (hm | ⟨r, hr, hm⟩))
    · exact Or.inl hm
    · exact Or.inr (List.mem_singleton.mp hr ▸ hm)
    · exact Or.inl hm
    · exact Or.inr (List.mem_singleton.mp hr ▸ hm)
  obtain ⟨_, id, _, hbatch⟩ := Batches.validateBatch_ok conformanceBatch_valid
  obtain ⟨_, id', -, -, hid', hrecord⟩ := Records.validateRecord_ok conformanceRecord_valid
  have hne : id ≠ id' := by
    obtain rfl := Json.str.inj (Option.some.inj hbatch.batchId)
    obtain rfl := Json.str.inj (Option.some.inj hid')
    decide
  have hmanifest : ∀ m, Batches.manifestBytes conformanceBatch = .ok m → hex (sha256 m) = id := by
    intro m hm
    obtain ⟨m', hm', rfl⟩ := Batches.calculateBatchId_ok hbatch.calculated
    rw [Except.ok.inj (hm.symm.trans hm')]
  have henvelope : ∀ m, Codec.canonicalJsonBytes (Records.envelopeForId conformanceRecord) = .ok m →
      hex (sha256 m) = id' := by
    intro m hm
    simp only [Records.calculateRecordId, bind_ok] at hrecord
    obtain ⟨m', hm', he⟩ := hrecord
    rw [Except.ok.inj (hm.symm.trans hm')]
    exact Except.ok.inj he
  intro m hm m' hm' he
  rcases hcases m hm with h | h <;> rcases hcases m' hm' with h' | h'
  · exact Except.ok.inj (h.symm.trans h')
  · exact absurd ((hmanifest m h).symm.trans (he ▸ henvelope m' h')) hne
  · exact absurd ((hmanifest m' h').symm.trans (he ▸ henvelope m h)) hne
  · exact Except.ok.inj (h.symm.trans h')

theorem package_unique_iff_sample : lowerPackage.sortKeys = upperPackage.sortKeys ↔
    (lowerPackage.getD "batch" .null).text "payload_hex" =
        (upperPackage.getD "batch" .null).text "payload_hex" ∧
      lowerPackage.get "version" = upperPackage.get "version" :=
  Packages.package_unique_iff (spelledPackage_wf _ _) (spelledPackage_wf _ _) lowerPackage_valid
    upperPackage_valid rfl injOn_spelledPackages

/-- Two accepted packages for one batch identifier, without any collision, that are not the same
JSON value: the payload is spelled in lower case and in upper case. -/
theorem package_not_unique : lowerPackage.WF ∧ upperPackage.WF ∧
    Packages.validatePackage lowerPackage = .ok () ∧
    Packages.validatePackage upperPackage = .ok () ∧
    (lowerPackage.getD "batch" .null).text "batch_id" =
      (upperPackage.getD "batch" .null).text "batch_id" ∧
    Set.InjOn sha256 (Packages.hashedBytes lowerPackage ∪ Packages.hashedBytes upperPackage) ∧
    lowerPackage.sortKeys ≠ upperPackage.sortKeys := by
  refine ⟨spelledPackage_wf _ _, spelledPackage_wf _ _, lowerPackage_valid, upperPackage_valid,
    rfl, injOn_spelledPackages, fun h => ?_⟩
  have hbatch := (Json.sortKeys_obj_eq_iff (spelledPackage_wf _ _).1
    (spelledPackage_wf _ _).1).mp h "batch"
  have hpayload := (Json.sortKeys_obj_eq_iff (by decide) (by decide)).mp
    (Option.some.inj hbatch) "payload_hex"
  exact absurd (Json.str.inj (Option.some.inj hpayload)) (by decide)

end Conformance

end HistoryAnchor

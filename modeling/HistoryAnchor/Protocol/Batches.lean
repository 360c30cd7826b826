import HistoryAnchor.Protocol.Bitcoin
import HistoryAnchor.Protocol.Merkle
import HistoryAnchor.Protocol.Records

/-! # Batches

A batch manifest lists record identifiers under a Merkle root; its `batch_id` is
the hash of everything but itself and the payload, and the payload must commit to
it. The payload's own spelling is checked only after decoding.
-/

namespace HistoryAnchor

open Python

namespace Batches

def batchSchema : PyStr := "hap.batch"
def batchVersion : ℤ := 3
def orderingRule : PyStr := "record_id_lexicographic_v1"
def allowedNetworks : List PyStr := ["mainnet", "signet", "regtest"]
def maxBatchRecords := 50000

def batchFields : List PyStr :=
  ["schema", "version", "created_at", "network", "record_count", "record_ordering", "record_ids",
   "merkle_root", "algorithms", "batch_id", "payload_hex"]

def expectedAlgorithms : List (PyStr × PyStr) :=
  [("record_id", "sha256"), ("batch_id", "sha256"), ("merkle_parent", "sha256(left||right)"),
   ("canonical_json", "hap-canonical-json-v1")]

def manifestBody (batch : Json) : Json := (batch.erase "batch_id").erase "payload_hex"

/-- The bytes whose hash is the `batch_id`. -/
def manifestBytes (batch : Json) : Py Bytes := Codec.canonicalJsonBytes (manifestBody batch)

def calculateBatchId (batch : Json) : Py PyStr := do
  return Codec.sha256Hex (← manifestBytes batch)

def sorted (xs : List PyStr) : List PyStr := xs.insertionSort (· ≤ ·)

/-- The schema, the version, the ordering rule, the network and the creation time. -/
def validateHeader (batch : Json) : Py Unit := do
  match batch with
  | .obj fields =>
    require (Json.hasFields fields batchFields) .batchValidationError
      "batch fields do not match the versioned schema"
    require ((batch.getD "schema" .null).eqStr batchSchema ∧
      (batch.getD "version" .null).eqInt batchVersion) .batchValidationError
      "unsupported batch schema or version"
    require ((batch.getD "record_ordering" .null).eqStr orderingRule) .batchValidationError
      "unsupported record ordering rule"
    let known ← memberOf (batch.getD "network" .null) allowedNetworks
    require (known = true) .batchValidationError "unsupported Bitcoin network"
    require ((batch.getD "created_at" .null).isNatural) .batchValidationError
      "created_at must be a non-negative integer"
  | _ => raise .batchValidationError "batch fields do not match the versioned schema"

def validateRecordIds (recordIds : Json) : Py (List PyStr) := do
  match recordIds with
  | .arr (x :: xs) =>
    require ((x :: xs).length ≤ maxBatchRecords) .batchValidationError
      "a batch may contain at most 50000 records"
    let ids ← (x :: xs).mapM fun item => requireDigest .batchValidationError item "record_id"
    require (ids = sorted ids) .batchValidationError
      "record_ids are not in canonical lexicographic order"
    require ids.Nodup .batchValidationError "duplicate record_ids are not allowed in a batch"
    return ids
  | _ => raise .batchValidationError "record_ids must be a non-empty list"

/-- `decode_anchor_payload` of any JSON value. -/
def decodePayload (payloadHex : Json) : Py Bitcoin.AnchorPayload :=
  match payloadHex with
  | .str s => Bitcoin.decodeAnchorPayload s
  | _ => raise .typeError "fromhex() argument must be str"

def validateIdentity (batch : Json) : Py Unit := do
  let batchId ← requireDigest .batchValidationError (batch.getD "batch_id" .null) "batch_id"
  let calculated ← calculateBatchId batch
  require (calculated = batchId) .batchValidationError
    "batch_id does not match canonical manifest"
  let payload ← rethrow (decodePayload (batch.getD "payload_hex" (.str ""))) fun e =>
    ⟨.batchValidationError, "invalid anchor payload: " ++ e.text⟩
  require (payload.commitmentType = Bitcoin.commitmentTypeBatchManifest) .batchValidationError
    "unsupported commitment type"
  require (payload.manifestHash = batchId) .batchValidationError
    "anchor payload does not commit to batch_id"

def validateBatch (batch : Json) : Py Unit := do
  validateHeader batch
  let ids ← validateRecordIds (batch.getD "record_ids" .null)
  require ((batch.getD "record_count" .null).eqInt ids.length) .batchValidationError
    "record_count does not match record_ids"
  let root ← Merkle.merkleRoot ids
  require ((batch.getD "merkle_root" .null).eqStr root) .batchValidationError
    "merkle_root does not match record_ids"
  require ((batch.getD "algorithms" .null).eqTexts expectedAlgorithms) .batchValidationError
    "unsupported algorithm declaration"
  validateIdentity batch

def createBatchManifest (recordIds : List PyStr) (network : PyStr) (createdAt : ℤ) : Py Json := do
  require (recordIds ≠ []) .batchValidationError "a batch requires at least one record"
  let ordered := sorted recordIds
  let root ← Merkle.merkleRoot ordered
  let body : List (PyStr × Json) :=
    [("schema", .str batchSchema), ("version", .int batchVersion), ("created_at", .int createdAt),
     ("network", .str network), ("record_count", .int ordered.length),
     ("record_ordering", .str orderingRule), ("record_ids", .arr (ordered.map .str)),
     ("merkle_root", .str root),
     ("algorithms", .obj (expectedAlgorithms.map fun (k, s) => (k, .str s)))]
  let batchId ← calculateBatchId (.obj body)
  let payloadHex ← Bitcoin.encodeAnchorPayload batchId Bitcoin.commitmentTypeBatchManifest
  let identity : List (PyStr × Json) :=
    [("batch_id", .str batchId), ("payload_hex", .str payloadHex)]
  let batch := Json.obj (body ++ identity)
  validateBatch batch
  return batch

structure Facts (batch : Json) (ids : List PyStr) (id payload : PyStr) : Prop where
  fields : ∃ fields, batch = .obj fields ∧ Json.hasFields fields batchFields = true
  recordIds : batch.get "record_ids" = some (.arr (ids.map .str))
  digests : ∀ s ∈ ids, ∃ raw, IsDigest s raw
  nonempty : ids ≠ []
  root : ∃ root, Merkle.merkleRoot ids = .ok root ∧ batch.get "merkle_root" = some (.str root)
  count : (batch.getD "record_count" .null).eqInt ids.length = true
  batchId : batch.get "batch_id" = some (.str id)
  calculated : calculateBatchId batch = .ok id
  payloadHex : batch.get "payload_hex" = some (.str payload)
  commits : ∃ p, Bitcoin.decodeAnchorPayload payload = .ok p ∧
    p.commitmentType = Bitcoin.commitmentTypeBatchManifest ∧ p.manifestHash = id

theorem mapM_requireDigest_ok {type : ExcType} {field : PyStr} {xs : List Json} {ids : List PyStr}
    (h : xs.mapM (fun item => requireDigest type item field) = .ok ids) :
    xs = ids.map .str ∧ ∀ s ∈ ids, ∃ raw, IsDigest s raw := by
  induction xs generalizing ids with
  | nil =>
    obtain rfl := Except.ok.inj h
    exact ⟨rfl, fun s hs => absurd hs List.not_mem_nil⟩
  | cons x xs ih =>
    simp only [List.mapM_cons, bind_ok] at h
    obtain ⟨s, hs, t, ht, h⟩ := h
    obtain rfl := Except.ok.inj h
    obtain ⟨rfl, hd⟩ := requireDigest_ok.mp hs
    obtain ⟨rfl, hds⟩ := ih ht
    refine ⟨rfl, ?_⟩
    simpa only [List.mem_cons, forall_eq_or_imp] using ⟨hd, hds⟩

theorem validateRecordIds_ok {v : Json} {ids : List PyStr} (h : validateRecordIds v = .ok ids) :
    v = .arr (ids.map .str) ∧ (∀ s ∈ ids, ∃ raw, IsDigest s raw) ∧ ids ≠ [] := by
  cases v with
  | arr xs =>
    cases xs with
    | nil => exact (raise_ne_ok h).elim
    | cons x xs =>
      simp only [validateRecordIds, bind_ok, require_ok, exists_unit] at h
      obtain ⟨-, ids', hm, -, -, h⟩ := h
      obtain rfl := Except.ok.inj h
      obtain ⟨hx, hd⟩ := mapM_requireDigest_ok hm
      refine ⟨by rw [hx], hd, ?_⟩
      rintro rfl
      simp at hx
  | _ => exact (raise_ne_ok h).elim

theorem eqStr_iff {v : Json} {s : PyStr} : v.eqStr s = true ↔ v = .str s := by
  cases v <;> simp [Json.eqStr]

theorem validateBatch_ok {batch : Json} (h : validateBatch batch = .ok ()) :
    ∃ ids batchId payloadHex, Facts batch ids batchId payloadHex := by
  simp only [validateBatch, bind_ok, require_ok, exists_unit] at h
  obtain ⟨hh, ids, hids, hcount, root, hroot, hr, -, hi⟩ := h
  have hfields : ∃ fields, batch = .obj fields ∧ Json.hasFields fields batchFields = true := by
    cases batch with
    | obj fields =>
      simp only [validateHeader, bind_ok, require_ok, exists_unit] at hh
      exact ⟨fields, rfl, hh.1⟩
    | _ => exact (raise_ne_ok hh).elim
  obtain ⟨fields, rfl, hf⟩ := hfields
  obtain ⟨ri, hri⟩ := Json.get_of_hasFields hf (k := "record_ids") (by decide)
  obtain ⟨mr, hmr⟩ := Json.get_of_hasFields hf (k := "merkle_root") (by decide)
  obtain ⟨bi, hbi⟩ := Json.get_of_hasFields hf (k := "batch_id") (by decide)
  obtain ⟨ph, hph⟩ := Json.get_of_hasFields hf (k := "payload_hex") (by decide)
  rw [Json.getD, hri, Option.getD_some] at hids
  obtain ⟨rfl, hd, hne⟩ := validateRecordIds_ok hids
  rw [Json.getD, hmr, Option.getD_some, eqStr_iff] at hr
  simp only [validateIdentity, bind_ok, require_ok, exists_unit, rethrow_ok] at hi
  obtain ⟨batchId, hb, calculated, hc, rfl, p, hp, hty, hm⟩ := hi
  rw [Json.getD, hbi, Option.getD_some, requireDigest_ok] at hb
  rw [Json.getD, hph, Option.getD_some] at hp
  cases ph with
  | str payloadHex =>
    exact ⟨ids, calculated, payloadHex, ⟨fields, rfl, hf⟩, hri, hd, hne,
      ⟨root, hroot, by rw [hmr, hr]⟩, hcount, by rw [hbi, hb.1], hc, hph, p, hp, hty, hm⟩
  | _ => exact (raise_ne_ok hp).elim

theorem calculateBatchId_ok {batch : Json} {id : PyStr} (h : calculateBatchId batch = .ok id) :
    ∃ m, manifestBytes batch = .ok m ∧ id = hex (sha256 m) := by
  simp only [calculateBatchId, bind_ok] at h
  obtain ⟨m, hm, h⟩ := h
  exact ⟨m, hm, (Except.ok.inj h).symm⟩

/-- Where manifests do not collide, batches with one identifier agree under every key that is part
of the manifest. -/
theorem get_eq_of_batchId {S : Set Bytes} (hS : Set.InjOn sha256 S) {kvs lws : List (PyStr × Json)}
    {id : PyStr} (hk : (kvs.map Prod.fst).Nodup) (hl : (lws.map Prod.fst).Nodup)
    (hc : calculateBatchId (.obj kvs) = .ok id) (hc' : calculateBatchId (.obj lws) = .ok id)
    (hm : ∀ m, manifestBytes (.obj kvs) = .ok m → m ∈ S)
    (hm' : ∀ m, manifestBytes (.obj lws) = .ok m → m ∈ S) {k : PyStr} (hb : k ≠ "batch_id")
    (hp : k ≠ "payload_hex") :
    (kvs.lookup k).map Json.sortKeys = (lws.lookup k).map Json.sortKeys := by
  obtain ⟨m, hx, he⟩ := calculateBatchId_ok hc
  obtain ⟨m', hx', he'⟩ := calculateBatchId_ok hc'
  obtain rfl : m = m' := hS (hm m hx) (hm' m' hx') (hex_injective (he.symm.trans he'))
  have hsort := Codec.canonicalJsonBytes_inj hx hx'
  have hnodup : ∀ (ms : List (PyStr × Json)) (p : PyStr × Json → Bool),
      (ms.map Prod.fst).Nodup → ((ms.filter p).map Prod.fst).Nodup := fun ms p h =>
    h.sublist (List.filter_sublist.map Prod.fst)
  have hget := (Json.sortKeys_obj_eq_iff (hnodup _ _ (hnodup _ _ hk))
    (hnodup _ _ (hnodup _ _ hl))).mp hsort k
  rwa [Json.lookup_filter_ne, Json.lookup_filter_ne, if_neg hp, if_neg hb,
    Json.lookup_filter_ne, Json.lookup_filter_ne, if_neg hp, if_neg hb] at hget

end Batches

theorem injOn_sha256_of_digests {S : Set Bytes} {L : List (Bytes × PyStr)}
    (hS : ∀ m ∈ S, ∃ digest, (m, digest) ∈ L) (hL : ∀ x ∈ L, hex (sha256 x.1) = x.2)
    (hnodup : (L.map Prod.snd).Nodup) : Set.InjOn sha256 S := by
  intro m hm m' hm' he
  obtain ⟨digest, hmem⟩ := hS m hm
  obtain ⟨digest', hmem'⟩ := hS m' hm'
  have hm : hex (sha256 m) = digest := hL (m, digest) hmem
  have hm' : hex (sha256 m') = digest' := hL (m', digest') hmem'
  rw [he] at hm
  have hpair : (m, digest) = (m', digest') :=
    List.inj_on_of_nodup_map hnodup hmem hmem' (hm.symm.trans hm')
  exact (Prod.mk.inj hpair).1

def conformanceBatch : Json :=
  .obj [
    ("schema", .str "hap.batch"), ("version", .int 3), ("created_at", .int 1721332920),
    ("network", .str "signet"), ("record_count", .int 1),
    ("record_ordering", .str "record_id_lexicographic_v1"),
    ("record_ids",
      .arr [.str "fe4fd10287faaea0736fe25fb849264527c0387bc8968786a9c19d8fa5aefeb5"]),
    ("merkle_root", .str "fe4fd10287faaea0736fe25fb849264527c0387bc8968786a9c19d8fa5aefeb5"),
    ("algorithms", .obj [
      ("record_id", .str "sha256"), ("batch_id", .str "sha256"),
      ("merkle_parent", .str "sha256(left||right)"),
      ("canonical_json", .str "hap-canonical-json-v1")]),
    ("batch_id", .str "5ca8c08e0aefbc9ecced864f9499b9f7c2b8af326257f6de2f9dd5488ba356fd"),
    ("payload_hex",
      .str "4849535403015ca8c08e0aefbc9ecced864f9499b9f7c2b8af326257f6de2f9dd5488ba356fd")]

theorem conformanceBatch_valid : Batches.validateBatch conformanceBatch = .ok () := by
  simp only [Batches.validateBatch, Batches.validateIdentity, Batches.calculateBatchId,
    Codec.sha256Hex, sha256_eq_words]
  decide +kernel

/-- The batch of a notice, a restriction and the claim that both are about. -/
def linkedBatch (createdAt : ℤ) (batchId : PyStr) : Json :=
  .obj [
    ("schema", .str "hap.batch"), ("version", .int 3), ("created_at", .int createdAt),
    ("network", .str "signet"), ("record_count", .int 3),
    ("record_ordering", .str "record_id_lexicographic_v1"),
    ("record_ids", .arr [
      .str "586ff124512e49965d9a55026bd7fff7e3a318c1eb79944c3a80f807e3ed0ffe",
      .str "a33bcc43c7811111d3443206e4b01fc35c5a60462fcace2febff5343b6ae4eb6",
      .str "ee8090f2561c04e94986db5aa987c0028c72b64a72a2c4484562dfab614ac2c9"]),
    ("merkle_root", .str "cdaf59e82522cb347f0fa1700a5539df48868524f976b81e85c7ef7cdf1c55c9"),
    ("algorithms", .obj [
      ("record_id", .str "sha256"), ("batch_id", .str "sha256"),
      ("merkle_parent", .str "sha256(left||right)"),
      ("canonical_json", .str "hap-canonical-json-v1")]),
    ("batch_id", .str batchId), ("payload_hex", .str (ascii "484953540301" ++ batchId))]

def earlyBatch : Json :=
  linkedBatch 1784455200 "9fba11072f128af94e374591787fcad8d1e401e00c617d4ffb2a80ba6f97abf4"

def lateBatch : Json :=
  linkedBatch 1784455201 "5a14f247d9f7884afba8ce75234cfd5fc20d89004f65708d8e23096d15d798c4"

theorem earlyBatch_valid : Batches.validateBatch earlyBatch = .ok () := by
  simp only [Batches.validateBatch, Batches.validateIdentity, Batches.calculateBatchId,
    Codec.sha256Hex, sha256_eq_words]
  decide +kernel

theorem lateBatch_valid : Batches.validateBatch lateBatch = .ok () := by
  simp only [Batches.validateBatch, Batches.validateIdentity, Batches.calculateBatchId,
    Codec.sha256Hex, sha256_eq_words]
  decide +kernel

end HistoryAnchor

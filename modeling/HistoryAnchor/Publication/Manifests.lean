import HistoryAnchor.Protocol.Limits
import HistoryAnchor.Publication.Membership

/-! # Manifests that are built here

The identifiers of distinct records, a known network and a time make a manifest that
validation accepts. Its size is bounded by the number of records, and so is
the size of a package by the sizes of its records.
-/

namespace HistoryAnchor

open Python

theorem width_quote_hexDigit : ∀ n < 16, Python.width (Json.escape (hexDigit n)) = 1 := by decide

theorem width_str_hex (bs : Bytes) : (Json.str (hex bs)).width = 2 * bs.length + 2 := by
  have hflat : Python.width ((hex bs).flatMap Json.escape) = 2 * bs.length := by
    induction bs with
    | nil => rfl
    | cons b bs ih =>
      have hb : b.toNat < 256 := b.toNat_lt
      have hcons : hex (b :: bs) = hexDigit (b.toNat / 16) :: hexDigit (b.toNat % 16) :: hex bs := rfl
      rw [hcons, List.flatMap_cons, List.flatMap_cons, width_append, width_append, ih,
        width_quote_hexDigit _ (by omega), width_quote_hexDigit _ (by omega), List.length_cons]
      omega
  show Python.width (Json.quote (hex bs)) = _
  rw [Json.quote, width_append, width_cons, width_cons, width_nil, hflat, pointWidth_of_lt (by decide)]
  omega

theorem width_int_le {n k : ℕ} (hk : 0 < k) (h : n < 10 ^ k) : (Json.int n).width ≤ k := by
  show Python.width (decimal n) ≤ k
  rw [width_decimal]
  exact length_decimal_le hk h

theorem width_obj_eq {kvs : List (PyStr × Json)} (h : kvs ≠ []) : (Json.obj kvs).width =
    ((kvs.map Prod.fst).map fun k => Python.width (Json.quote k) + 2).sum +
      ((kvs.map Prod.snd).map Json.width).sum + 1 := by
  rw [Json.width_obj h]
  clear h
  induction kvs with
  | nil => rfl
  | cons kv kvs ih =>
    simp only [List.map_cons, List.sum_cons, Json.memberWidth]
    omega

/-- A hash as `sha256_hex` spells it. -/
def IsHash (s : PyStr) : Prop := ∃ raw : Bytes, raw.length = 32 ∧ s = hex raw

theorem isHash_sha256Hex (m : Bytes) : IsHash (Codec.sha256Hex m) := ⟨_, length_sha256 m, rfl⟩

namespace IsHash

variable {s : PyStr}

theorem isDigest (h : IsHash s) : ∃ raw, IsDigest s raw := by
  obtain ⟨raw, hraw, rfl⟩ := h
  exact ⟨raw, by rw [length_hex, hraw], fromHex_hex raw, hraw⟩

theorem width (h : IsHash s) : (Json.str s).width = 66 := by
  obtain ⟨raw, hraw, rfl⟩ := h
  rw [width_str_hex, hraw]

end IsHash

theorem Records.isHash_recordId [Ed25519] {record : Json} {verifySignature : Bool}
    (h : validateRecord record verifySignature = .ok ()) : IsHash (record.text "record_id") := by
  obtain ⟨fields, id, -, -, hid, hc⟩ := validateRecord_ok h
  simp only [calculateRecordId, bind_ok] at hc
  obtain ⟨m, -, hm⟩ := hc
  rw [Json.text, hid, ← Except.ok.inj hm]
  exact isHash_sha256Hex m

theorem Merkle.length_climb {a : Bytes} (h : a.length = 32) (path : List (MerkleTree.Step Bytes)) :
    (MerkleTree.climb parent a path).length = 32 := by
  induction path generalizing a with
  | nil => exact h
  | cons s path ih =>
    rw [MerkleTree.climb_cons]
    exact ih (length_sha256 _)

theorem Merkle.exists_merkleRoot {ids : List PyStr} (hne : ids ≠ [])
    (hids : ∀ s ∈ ids, ∃ raw, IsDigest s raw) : ∃ root, merkleRoot ids = .ok root ∧ IsHash root := by
  obtain ⟨steps, root, -, hroot, -, -, a, ha, rfl⟩ :=
    exists_merkleProof hids (List.length_pos_of_ne_nil hne)
  exact ⟨_, hroot, _, length_climb (leaf_ok.mp ha).2 steps, rfl⟩

theorem Bitcoin.encodeAnchorPayload_ok (type : UInt8) {digest : Bytes} (h : digest.length = 32) :
    ∃ payloadHex, encodeAnchorPayload (hex digest) type = .ok payloadHex ∧
      decodeAnchorPayload payloadHex = .ok ⟨version, type, hex digest⟩ ∧
      (Json.str payloadHex).width = 78 := by
  have hlen : (magic ++ [version, type] ++ digest).length = 38 := by
    simp only [List.length_append, h]
    rfl
  refine ⟨hex (magic ++ [version, type] ++ digest), ?_, ?_, by rw [width_str_hex, hlen]⟩
  · simp only [encodeAnchorPayload, fromHex_hex, bind_ok, require_ok, exists_unit]
    exact ⟨h, rfl⟩
  · exact decodeAnchorPayload_ok.mpr ⟨_, fromHex_hex _, hlen, rfl, rfl, rfl⟩

namespace Batches

variable {ids : List PyStr} {network : PyStr} {t : ℕ}

/-- The fields of a manifest but for those that depend on its hash. -/
def manifestFields (ids : List PyStr) (network root : PyStr) (createdAt : ℤ) :
    List (PyStr × Json) :=
  [("schema", .str batchSchema), ("version", .int batchVersion), ("created_at", .int createdAt),
   ("network", .str network), ("record_count", .int ids.length),
   ("record_ordering", .str orderingRule), ("record_ids", .arr (ids.map .str)),
   ("merkle_root", .str root),
   ("algorithms", .obj (expectedAlgorithms.map fun (k, s) => (k, .str s)))]

theorem sorted_perm (ids : List PyStr) : (sorted ids).Perm ids := List.perm_insertionSort _ _

theorem sorted_sorted (ids : List PyStr) : sorted (sorted ids) = sorted ids :=
  (List.pairwise_insertionSort (· ≤ ·) ids).insertionSort_eq

theorem encodes_manifestFields {root : PyStr} (hids : ∀ s ∈ ids, IsHash s)
    (hnetwork : network ∈ allowedNetworks) (hroot : Encodable root)
    (ht : (t : ℤ) ≤ Codec.maxSafeJsonInteger) (hlen : ids.length ≤ maxBatchRecords) :
    Encodes 0 (.obj (manifestFields ids network root t)) := by
  have hplain : ∀ s : PyStr, s.all (fun c => c.val < 0x80) = true → Encodable s := fun s hs =>
    encodable_of_all hs
  have hnetworks : allowedNetworks.all (fun s => s.all fun c => c.val < 0x80) = true := by decide
  have halgorithms : expectedAlgorithms.all (fun kv => kv.1.all (fun c => c.val < 0x80) &&
      kv.2.all fun c => c.val < 0x80) = true := by decide
  apply Encodes.obj (by decide)
  · intro kv hkv
    have hmem : kv.1 ∈ (manifestFields ids network root t).map Prod.fst := List.mem_map_of_mem hkv
    have hkeys : ((manifestFields [] [] [] 0).map Prod.fst).all
        (fun k => k.all fun c => c.val < 0x80) = true := by decide
    exact hplain _ (List.all_eq_true.mp hkeys _ hmem)
  · have hmax : Codec.maxSafeJsonInteger = 9007199254740991 := rfl
    have hsize : (ids.length : ℤ) ≤ 50000 := by exact_mod_cast hlen
    simp only [manifestFields, List.forall_mem_cons]
    refine ⟨.str (by decide) (hplain _ (by decide)), .int (by decide) (by decide),
      .int (by decide) ⟨by omega, by omega⟩,
      .str (by decide) (hplain _ (List.all_eq_true.mp hnetworks _ hnetwork)),
      .int (by decide) ⟨by omega, by omega⟩, .str (by decide) (hplain _ (by decide)),
      .arr (by decide) ?_, .str (by decide) hroot, .obj (by decide) ?_ ?_,
      fun _ h => absurd h List.not_mem_nil⟩
    · intro x hx
      obtain ⟨s, hs, rfl⟩ := List.mem_map.mp hx
      obtain ⟨raw, hraw⟩ := (hids s hs).isDigest
      exact .str (by decide) hraw.encodable
    · intro kv hkv
      obtain ⟨p, hp, rfl⟩ := List.mem_map.mp hkv
      have hall := List.all_eq_true.mp halgorithms p hp
      rw [Bool.and_eq_true] at hall
      exact hplain _ hall.1
    · intro kv hkv
      obtain ⟨p, hp, rfl⟩ := List.mem_map.mp hkv
      have hall := List.all_eq_true.mp halgorithms p hp
      rw [Bool.and_eq_true] at hall
      exact .str (by decide) (hplain _ hall.2)

/-- What is built from the identifiers of records. -/
structure Creates (ids : List PyStr) (network : PyStr) (createdAt : ℤ) (batch : Json) : Prop where
  created : createBatchManifest ids network createdAt = .ok batch
  valid : validateBatch batch = .ok ()
  fields : ∃ root batchId payloadHex, IsHash root ∧ IsHash batchId ∧
    (Json.str payloadHex).width = 78 ∧
    batch = .obj (manifestFields (sorted ids) network root createdAt ++
      [(ascii "batch_id", .str batchId), (ascii "payload_hex", .str payloadHex)])

theorem validateRecordIds_ok_of {ids : List PyStr} (hne : ids ≠ []) (hn : ids.Nodup)
    (hids : ∀ s ∈ ids, ∃ raw, IsDigest s raw) (hsorted : sorted ids = ids)
    (hlen : ids.length ≤ maxBatchRecords) : validateRecordIds (.arr (ids.map .str)) = .ok ids := by
  have hdigests : (ids.map Json.str).mapM
      (fun item => requireDigest .batchValidationError item "record_id") = .ok ids := by
    rw [List.mapM_map]
    refine (Packages.mapM_ok (g := id) fun s hs => ?_).trans (by rw [List.map_id])
    exact requireDigest_ok.mpr ⟨rfl, hids s hs⟩
  cases ids with
  | nil => exact absurd rfl hne
  | cons s ids =>
    rw [List.map_cons] at hdigests ⊢
    simp only [validateRecordIds, bind_ok, require_ok, exists_unit]
    refine ⟨by simpa using hlen, _, hdigests, hsorted.symm, hn, rfl⟩

theorem createBatchManifest_ok (hne : ids ≠ []) (hn : ids.Nodup) (hids : ∀ s ∈ ids, IsHash s)
    (hnetwork : network ∈ allowedNetworks) (ht : (t : ℤ) ≤ Codec.maxSafeJsonInteger)
    (hlen : ids.length ≤ maxBatchRecords) : ∃ batch, Creates ids network t batch := by
  have hperm := sorted_perm ids
  have hhash : ∀ s ∈ sorted ids, IsHash s := fun s hs => hids s (hperm.subset hs)
  have hdigests : ∀ s ∈ sorted ids, ∃ raw, IsDigest s raw := fun s hs => (hhash s hs).isDigest
  have hsize : (sorted ids).length = ids.length := hperm.length_eq
  have hne' : sorted ids ≠ [] := fun h => hne (List.length_eq_zero_iff.mp (by rw [← hsize, h]; rfl))
  obtain ⟨root, hroot, hrootHash⟩ := Merkle.exists_merkleRoot hne' hdigests
  obtain ⟨raw, hrootDigest⟩ := hrootHash.isDigest
  obtain ⟨m, hm⟩ := Codec.exists_canonicalJsonBytes_iff.mpr
    (encodes_manifestFields hhash hnetwork hrootDigest.encodable ht (hsize ▸ hlen))
  have hid : calculateBatchId (.obj (manifestFields (sorted ids) network root t)) =
      .ok (Codec.sha256Hex m) := by
    have hbody : manifestBody (.obj (manifestFields (sorted ids) network root t)) =
        .obj (manifestFields (sorted ids) network root t) := rfl
    rw [calculateBatchId, manifestBytes, hbody, hm]
    rfl
  obtain ⟨payloadHex, hencode, hdecode, hwidth⟩ := Bitcoin.encodeAnchorPayload_ok
    Bitcoin.commitmentTypeBatchManifest (length_sha256 m)
  set batch := Json.obj (manifestFields (sorted ids) network root t ++
    [(ascii "batch_id", .str (Codec.sha256Hex m)), (ascii "payload_hex", .str payloadHex)])
    with hbatch
  have hcalculated : calculateBatchId batch = .ok (Codec.sha256Hex m) := hid
  obtain ⟨digest, hdigest⟩ := (isHash_sha256Hex m).isDigest
  have hvalid : validateBatch batch = .ok () := by
    simp only [validateBatch, bind_ok, require_ok, exists_unit]
    refine ⟨?_, sorted ids, ?_, ?_, root, hroot, eqStr_iff.mpr rfl, ?_, ?_⟩
    · simp only [hbatch, validateHeader, bind_ok, require_ok, exists_unit]
      refine ⟨rfl, ⟨rfl, rfl⟩, rfl, true, ?_, rfl, ?_⟩
      · exact congrArg Except.ok (decide_eq_true hnetwork)
      · exact decide_eq_true (Int.natCast_nonneg t)
    · exact validateRecordIds_ok_of hne' (hperm.nodup_iff.mpr hn) hdigests (sorted_sorted ids)
        (hsize ▸ hlen)
    · exact decide_eq_true rfl
    · rfl
    · simp only [validateIdentity, bind_ok, require_ok, exists_unit, rethrow_ok]
      exact ⟨_, requireDigest_ok.mpr ⟨rfl, digest, hdigest⟩, _, hcalculated, rfl, _, hdecode, rfl,
        rfl⟩
  refine ⟨batch, ?_, hvalid, root, _, payloadHex, hrootHash, isHash_sha256Hex m, hwidth, rfl⟩
  simp only [createBatchManifest, bind_ok, require_ok, exists_unit]
  exact ⟨hne, root, hroot, _, hid, payloadHex, hencode, hvalid, rfl⟩

namespace Creates

variable {createdAt : ℤ} {batch : Json}

theorem wf (h : Creates ids network createdAt batch) : batch.WF := by
  obtain ⟨root, batchId, payloadHex, -, -, -, rfl⟩ := h.fields
  refine ⟨?_, ?_⟩
  · show ((manifestFields [] [] [] 0 ++ [(ascii "batch_id", Json.null),
      (ascii "payload_hex", Json.null)]).map Prod.fst).Nodup
    decide
  · apply Json.wfMembers_iff.mpr
    simp only [manifestFields, List.cons_append, List.nil_append, List.forall_mem_cons]
    refine ⟨trivial, trivial, trivial, trivial, trivial, trivial, ?_, trivial, ?_, trivial, trivial,
      fun _ h => absurd h List.not_mem_nil⟩
    · apply Json.wfList_iff.mpr
      intro x hx
      obtain ⟨s, -, rfl⟩ := List.mem_map.mp hx
      trivial
    · simp only [expectedAlgorithms, List.map_cons, List.map_nil, Json.WF, Json.WFMembers, and_true]
      decide

theorem recordIds (h : Creates ids network createdAt batch) :
    batch.get "record_ids" = some (.arr ((sorted ids).map .str)) := by
  obtain ⟨root, batchId, payloadHex, -, -, -, rfl⟩ := h.fields
  rfl

theorem network_eq (h : Creates ids network createdAt batch) : batch.text "network" = network := by
  obtain ⟨root, batchId, payloadHex, -, -, -, rfl⟩ := h.fields
  rfl

/-- Each listed record takes 67 bytes; what else the manifest holds takes less than 900. -/
theorem width_le (h : Creates ids network t batch) (hids : ∀ s ∈ ids, IsHash s) (hne : ids ≠ [])
    (hnetwork : network ∈ allowedNetworks) (ht : (t : ℤ) ≤ Codec.maxSafeJsonInteger)
    (hlen : ids.length ≤ maxBatchRecords) : batch.width ≤ 67 * ids.length + 900 := by
  obtain ⟨root, batchId, payloadHex, hroot, hbatchId, hpayload, rfl⟩ := h.fields
  have hmax : Codec.maxSafeJsonInteger = 9007199254740991 := rfl
  have hsize : (sorted ids).length = ids.length := (sorted_perm ids).length_eq
  have hlisted : (Json.arr ((sorted ids).map .str)).width = 67 * ids.length + 1 := by
    have hall : ((sorted ids).map Json.str).map (fun x => x.width + 1) =
        List.replicate ids.length 67 := by
      rw [List.map_map, ← hsize]
      apply List.eq_replicate_iff.mpr
      refine ⟨List.length_map _, fun n hn => ?_⟩
      obtain ⟨s, hs, rfl⟩ := List.mem_map.mp hn
      show (Json.str s).width + 1 = 67
      rw [(hids s ((sorted_perm ids).subset hs)).width]
    have hne' : (sorted ids).map Json.str ≠ [] := by
      intro hnil
      rw [List.map_eq_nil_iff] at hnil
      rw [hnil] at hsize
      exact hne (List.length_eq_zero_iff.mp hsize.symm)
    rw [Json.width_arr hne', hall, List.sum_replicate, smul_eq_mul, Nat.mul_comm]
  have hnames : (Json.str network).width ≤ 9 := by
    have hall : allowedNetworks.all (fun s => decide ((Json.str s).width ≤ 9)) = true := by decide
    exact of_decide_eq_true (List.all_eq_true.mp hall network hnetwork)
  have htime : (Json.int t).width ≤ 16 := width_int_le (by decide) (by omega)
  have hcount : (Json.int (sorted ids).length).width ≤ 5 :=
    width_int_le (by decide) (by rw [hsize]; exact hlen.trans_lt (by decide))
  rw [width_obj_eq (by exact List.cons_ne_nil _ _)]
  have hkeys : (((manifestFields (sorted ids) network root t ++
      [(ascii "batch_id", Json.str batchId), (ascii "payload_hex", Json.str payloadHex)]).map
        Prod.fst).map fun k => Python.width (Json.quote k) + 2).sum = 151 := by
    show (((manifestFields [] [] [] 0 ++ [(ascii "batch_id", Json.null),
      (ascii "payload_hex", Json.null)]).map Prod.fst).map
        fun k => Python.width (Json.quote k) + 2).sum = 151
    decide
  have hfixed : (Json.str batchSchema).width = 11 ∧ (Json.int batchVersion).width = 1 ∧
      (Json.str orderingRule).width = 28 ∧
      (Json.obj (expectedAlgorithms.map fun kv => (kv.1, .str kv.2))).width = 121 := by
    decide +kernel
  rw [hkeys]
  simp only [manifestFields, List.cons_append, List.nil_append, List.map_cons, List.map_nil,
    List.sum_cons, List.sum_nil, hroot.width, hbatchId.width, hpayload, hlisted, hfixed]
  omega

end Creates

end Batches

namespace Packages

variable [Ed25519] {b p : Json} {rs : List Json}

theorem createPackage_eq (h : createPackage b rs = .ok p) : ∃ ordered id, IsHash id ∧
    p = .obj [(ascii "schema", .str packageSchema), (ascii "version", .int packageVersion),
      (ascii "batch", b), (ascii "records", .arr ordered), (ascii "package_id", .str id)] := by
  simp only [createPackage, bind_ok] at h
  obtain ⟨ordered, -, id, hid, -, -, h⟩ := h
  simp only [calculatePackageId, bind_ok] at hid
  obtain ⟨m, -, hm⟩ := hid
  exact ⟨ordered, id, Except.ok.inj hm ▸ isHash_sha256Hex m, (Except.ok.inj h).symm⟩

theorem width_le_of_createPackage (h : createPackage b rs = .ok p)
    (hrs : p.get "records" = some (.arr rs)) :
    p.width ≤ b.width + (rs.map fun r => r.width + 1).sum + 150 := by
  obtain ⟨ordered, id, hid, rfl⟩ := createPackage_eq h
  obtain rfl : ordered = rs := by
    have he : (Json.arr ordered) = Json.arr rs := Option.some.inj hrs
    exact Json.arr.inj he
  have hrecords := Json.width_arr_le ordered
  have hkeys : ([ascii "schema", ascii "version", ascii "batch", ascii "records",
      ascii "package_id"].map fun k => Python.width (Json.quote k) + 2).sum = 55 := by decide
  have hfixed : (Json.str packageSchema).width = 13 ∧ (Json.int packageVersion).width = 1 := by
    decide
  rw [width_obj_eq (List.cons_ne_nil _ _)]
  simp only [List.map_cons, List.map_nil, List.sum_cons, List.sum_nil] at hkeys ⊢
  rw [hfixed.1, hfixed.2, hid.width]
  omega

end Packages

end HistoryAnchor

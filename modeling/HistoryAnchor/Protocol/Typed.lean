import HistoryAnchor.Protocol.Batches
import HistoryAnchor.Python.Equality

/-! # Validation with typed equality

In the source `True` equals `1`. The validators differ from ones that compare typed
values in two places: the version of a record and the count of a batch of one record.
-/

namespace Python.Json

theorem same_str (s : PyStr) (v : Json) : (str s).same v = v.eqStr s := by
  cases v with
  | str t => exact decide_eq_decide.mpr eq_comm
  | _ => rfl

theorem same_int {n : ℤ} {v : Json} : (int n).same v = true ↔ v = int n := by
  cases v <;> simp [same, eq_comm]

theorem Exact.get {v x : Json} {k : PyStr} (h : v.Exact) (hx : v.get k = some x) : x.Exact := by
  cases v with
  | obj kvs => exact (exactMembers_iff kvs).mp h _ (mem_of_lookup hx)
  | _ => cases hx

theorem eqInt_of_exact {v : Json} {n : ℤ} (h : v.Exact) :
    v.eqInt n = true ↔ v = .int n ∨ ∃ b : Bool, v = .bool b ∧ (b.toNat : ℤ) = n := by
  cases v with
  | float => exact h.elim
  | _ => simp [eqInt]

end Python.Json

namespace HistoryAnchor

open Python

namespace Records

/-- `validateHeader` with typed equality. -/
def validateHeaderTyped (record : Json) : Py PyStr := do
  match record with
  | .obj fields =>
    require (Json.hasFields fields recordFields) .recordValidationError
      "record fields do not match the versioned schema"
    require ((Json.str "hap.record").same (record.getD "schema" .null)) .recordValidationError
      "unsupported record schema"
    require ((Json.int 1).same (record.getD "version" .null)) .recordValidationError
      "unsupported record version"
    let known ← memberOf (record.getD "kind" .null) allowedKinds
    require (known = true) .recordValidationError "invalid record kind"
    return record.text "kind"
  | _ => raise .recordValidationError "record fields do not match the versioned schema"

/-- `validateRecord` with typed equality; all other comparisons are between texts. -/
def validateRecordTyped [Ed25519] (record : Json) (verifySignature : Bool) : Py Unit := do
  let kind ← validateHeaderTyped record
  validateTexts record
  validateTarget kind (record.getD "target_record_id" .null)
  validateLists record
  validateIdentity record verifySignature

/-- The version is the integer one, and the sizes of the evidence are integers. -/
structure Typed (record : Json) : Prop where
  version : record.get "version" = some (.int 1)
  sizes : ∀ item ∈ record.items "evidence", ∃ n, item.get "size" = some (.int n)

theorem isNatural_iff {v : Json} : v.isNatural = true ↔ ∃ n : ℤ, 0 ≤ n ∧ v = .int n := by
  cases v <;> simp [Json.isNatural]

theorem getD_eq_int {v : Json} {k : PyStr} {n : ℤ} :
    v.getD k .null = .int n ↔ v.get k = some (.int n) := by
  unfold Json.getD
  cases v.get k <;> simp

theorem size_of_validateEvidence {item : Json} (h : validateEvidence item = .ok ()) :
    ∃ n, item.get "size" = some (.int n) := by
  cases item with
  | obj fields =>
    simp only [validateEvidence, bind_ok, require_ok, exists_unit] at h
    obtain ⟨-, -, -, -, hsize, -⟩ := h
    obtain ⟨n, -, hn⟩ := isNatural_iff.mp hsize
    exact ⟨n, getD_eq_int.mp hn⟩
  | _ => exact (raise_ne_ok h).elim

theorem normalizeList_ok {record : Json} {field : PyStr} {xs : List Json}
    (h : normalizeList (record.getD field .null) field = .ok xs) : record.items field = xs := by
  unfold Json.getD at h
  unfold Json.items
  cases hg : record.get field with
  | none =>
    rw [hg] at h
    exact Except.ok.inj h
  | some v =>
    rw [hg, Option.getD_some] at h
    cases v with
    | null | arr => exact Except.ok.inj h
    | _ => exact (raise_ne_ok h).elim

theorem sizes_of_validateLists {record : Json} (h : validateLists record = .ok ()) :
    ∀ item ∈ record.items "evidence", ∃ n, item.get "size" = some (.int n) := by
  simp only [validateLists, bind_ok, require_ok, exists_unit] at h
  obtain ⟨-, -, evidence, he, -, -, -, -, -, -, hall⟩ := h
  rw [normalizeList_ok he]
  exact fun item hitem => size_of_validateEvidence (forM_ok.mp hall item hitem)

theorem validateHeaderTyped_ok {record : Json} {kind : PyStr} :
    validateHeaderTyped record = .ok kind ↔
      validateHeader record = .ok kind ∧ record.get "version" = some (.int 1) := by
  cases record with
  | obj fields =>
    simp only [validateHeaderTyped, validateHeader, bind_ok, require_ok, exists_unit,
      Json.same_str, Json.same_int, getD_eq_int]
    constructor
    · rintro ⟨hf, hs, hv, h⟩
      exact ⟨⟨hf, hs, by rw [getD_eq_int.mpr hv]; rfl, h⟩, hv⟩
    · rintro ⟨⟨hf, hs, -, h⟩, hv⟩
      exact ⟨hf, hs, hv, h⟩
  | _ => exact ⟨fun h => (raise_ne_ok h).elim, fun h => (raise_ne_ok h.1).elim⟩

section

variable [Ed25519] {record : Json} {verifySignature : Bool}

theorem validateRecordTyped_ok : validateRecordTyped record verifySignature = .ok () ↔
    validateRecord record verifySignature = .ok () ∧ record.get "version" = some (.int 1) := by
  simp only [validateRecordTyped, validateRecord, bind_ok, exists_unit, validateHeaderTyped_ok]
  constructor
  · rintro ⟨kind, ⟨hkind, hv⟩, h⟩
    exact ⟨⟨kind, hkind, h⟩, hv⟩
  · rintro ⟨⟨kind, hkind, h⟩, hv⟩
    exact ⟨kind, ⟨hkind, hv⟩, h⟩

theorem version_of_validateRecord (h : validateRecord record verifySignature = .ok ()) :
    record.get "version" = some (.int 1) ∨ record.get "version" = some (.bool true) := by
  obtain ⟨fields, id, rfl, hf, -, hc⟩ := validateRecord_ok h
  simp only [calculateRecordId, bind_ok] at hc
  obtain ⟨m, hm, -⟩ := hc
  obtain ⟨x, hx⟩ := Json.get_of_hasFields hf (k := "version") (by decide)
  have hget : (envelopeForId (.obj fields)).get "version" = some x :=
    (Json.get_erase _ _ _).trans ((if_neg (by decide)).trans hx)
  have hexact : x.Exact := (Codec.canonicalJsonBytes_ok hm).1.get hget
  simp only [validateRecord, validateHeader, bind_ok, require_ok, exists_unit] at h
  obtain ⟨_, ⟨-, -, hversion, -⟩, -⟩ := h
  rw [Json.getD, hx, Option.getD_some, Json.eqInt_of_exact hexact] at hversion
  rw [hx]
  rcases hversion with rfl | ⟨b, rfl, hb⟩
  · exact Or.inl rfl
  · cases b with
    | true => exact Or.inr rfl
    | false => cases hb

theorem sizes_of_validateRecord (h : validateRecord record verifySignature = .ok ()) :
    ∀ item ∈ record.items "evidence", ∃ n, item.get "size" = some (.int n) := by
  simp only [validateRecord, bind_ok, exists_unit] at h
  obtain ⟨_, -, -, -, hlists, -⟩ := h
  exact sizes_of_validateLists hlists

theorem typed_iff (h : validateRecord record verifySignature = .ok ()) :
    Typed record ↔ record.get "version" ≠ some (.bool true) := by
  constructor
  · intro ht he
    cases ht.version.symm.trans he
  · exact fun hne => ⟨(version_of_validateRecord h).resolve_right hne, sizes_of_validateRecord h⟩

end

end Records

namespace Batches

/-- `validateHeader` with typed equality. -/
def validateHeaderTyped (batch : Json) : Py Unit := do
  match batch with
  | .obj fields =>
    require (Json.hasFields fields batchFields) .batchValidationError
      "batch fields do not match the versioned schema"
    require ((Json.str batchSchema).same (batch.getD "schema" .null) ∧
      (Json.int batchVersion).same (batch.getD "version" .null)) .batchValidationError
      "unsupported batch schema or version"
    require ((Json.str orderingRule).same (batch.getD "record_ordering" .null))
      .batchValidationError "unsupported record ordering rule"
    let known ← memberOf (batch.getD "network" .null) allowedNetworks
    require (known = true) .batchValidationError "unsupported Bitcoin network"
    require ((batch.getD "created_at" .null).isNatural) .batchValidationError
      "created_at must be a non-negative integer"
  | _ => raise .batchValidationError "batch fields do not match the versioned schema"

/-- `validateBatch` with typed equality; all other comparisons are between texts. -/
def validateBatchTyped (batch : Json) : Py Unit := do
  validateHeaderTyped batch
  let ids ← validateRecordIds (batch.getD "record_ids" .null)
  require ((Json.int ids.length).same (batch.getD "record_count" .null)) .batchValidationError
    "record_count does not match record_ids"
  let root ← Merkle.merkleRoot ids
  require ((Json.str root).same (batch.getD "merkle_root" .null)) .batchValidationError
    "merkle_root does not match record_ids"
  require ((Json.obj (expectedAlgorithms.map fun (k, s) => (k, .str s))).same
    (batch.getD "algorithms" .null)) .batchValidationError "unsupported algorithm declaration"
  validateIdentity batch

/-- The version is the integer three, the count and the creation time are integers. -/
structure Typed (batch : Json) : Prop where
  version : batch.get "version" = some (.int 3)
  count : ∃ n, batch.get "record_count" = some (.int n)
  createdAt : ∃ n, batch.get "created_at" = some (.int n)

theorem same_texts (expected : List (PyStr × PyStr)) (v : Json) :
    (Json.obj (expected.map fun (k, s) => (k, .str s))).same v = v.eqTexts expected := by
  cases v with
  | obj kvs =>
    have hmembers : ∀ es : List (PyStr × PyStr),
        Json.sameMembers (es.map fun (k, s) => (k, .str s)) kvs =
          es.all fun (k, s) => (kvs.lookup k).any (Json.eqStr · s) := by
      intro es
      induction es with
      | nil => rfl
      | cons e es ih =>
        rw [List.map_cons, Json.sameMembers, ih, List.all_cons]
        simp only [Json.same_str]
    have hkeys : (expected.map fun (k, s) => (k, Json.str s)).map Prod.fst =
        expected.map Prod.fst := by
      rw [List.map_map]
      rfl
    rw [Json.same, hmembers, hkeys, Json.eqTexts, Json.hasFields, Bool.and_assoc]
    congr 1
    rw [eq_comm, Bool.and_eq_right_iff_imp]
    intro h
    simp only [List.all_eq_true, decide_eq_true_eq, List.forall_mem_map] at h ⊢
    intro e he
    obtain ⟨x, hx, -⟩ := (Option.any_eq_true _ _).mp (h e he)
    exact List.mem_map_of_mem (Json.mem_of_lookup hx)
  | _ => rfl

variable {batch : Json}

theorem validateHeaderTyped_ok : validateHeaderTyped batch = .ok () ↔
    validateHeader batch = .ok () ∧ batch.get "version" = some (.int 3) := by
  cases batch with
  | obj fields =>
    simp only [validateHeaderTyped, validateHeader, bind_ok, require_ok, exists_unit,
      Json.same_str, Json.same_int, Records.getD_eq_int]
    constructor
    · rintro ⟨hf, ⟨hs, hv⟩, h⟩
      exact ⟨⟨hf, ⟨hs, by rw [Records.getD_eq_int.mpr hv]; rfl⟩, h⟩, hv⟩
    · rintro ⟨⟨hf, ⟨hs, -⟩, h⟩, hv⟩
      exact ⟨hf, ⟨hs, hv⟩, h⟩
  | _ => exact ⟨fun h => (raise_ne_ok h).elim, fun h => (raise_ne_ok h.1).elim⟩

theorem validateBatchTyped_ok : validateBatchTyped batch = .ok () ↔
    validateBatch batch = .ok () ∧ batch.get "version" = some (.int 3) ∧
      ∃ n, batch.get "record_count" = some (.int n) := by
  simp only [validateBatchTyped, validateBatch, bind_ok, require_ok, exists_unit,
    validateHeaderTyped_ok, Json.same_str, same_texts, Json.same_int]
  constructor
  · rintro ⟨⟨hh, hv⟩, ids, hids, hc, h⟩
    exact ⟨⟨hh, ids, hids, by rw [hc]; exact decide_eq_true rfl, h⟩, hv, _,
      Records.getD_eq_int.mp hc⟩
  · rintro ⟨⟨hh, ids, hids, hc, h⟩, hv, n, hn⟩
    rw [Records.getD_eq_int.mpr hn] at hc
    refine ⟨⟨hh, hv⟩, ids, hids, ?_, h⟩
    rw [Records.getD_eq_int.mpr hn, of_decide_eq_true hc]

theorem exact_of_validateBatch (h : validateBatch batch = .ok ()) {k : PyStr} {x : Json}
    (hb : k ≠ "batch_id") (hp : k ≠ "payload_hex") (hx : batch.get k = some x) : x.Exact := by
  obtain ⟨ids, id, payload, hf⟩ := validateBatch_ok h
  obtain ⟨m, hm, -⟩ := calculateBatchId_ok hf.calculated
  refine (Codec.canonicalJsonBytes_ok hm).1.get (k := k) ?_
  rw [manifestBody, Json.get_erase, if_neg hp, Json.get_erase, if_neg hb, hx]

/-- The version of an accepted batch is three, and its creation time is an integer. -/
theorem header_of_validateBatch (h : validateBatch batch = .ok ()) :
    batch.get "version" = some (.int 3) ∧ ∃ n, batch.get "created_at" = some (.int n) := by
  obtain ⟨ids, id, payload, hf⟩ := validateBatch_ok h
  obtain ⟨fields, rfl, hfields⟩ := hf.fields
  obtain ⟨x, hx⟩ := Json.get_of_hasFields hfields (k := "version") (by decide)
  have hexact := exact_of_validateBatch h (by decide) (by decide) hx
  simp only [validateBatch, validateHeader, bind_ok, require_ok, exists_unit] at h
  obtain ⟨⟨-, ⟨-, hversion⟩, -, -, -, -, hcreated⟩, -⟩ := h
  obtain ⟨n, -, hn⟩ := Records.isNatural_iff.mp hcreated
  refine ⟨?_, n, Records.getD_eq_int.mp hn⟩
  rw [Json.getD, hx, Option.getD_some, Json.eqInt_of_exact hexact] at hversion
  rw [hx]
  rcases hversion with rfl | ⟨b, rfl, hb⟩
  · rfl
  · cases b <;> cases hb

theorem count_of_validateBatch (h : validateBatch batch = .ok ()) :
    (∃ n, batch.get "record_count" = some (.int n)) ∨
      batch.get "record_count" = some (.bool true) := by
  obtain ⟨ids, id, payload, hf⟩ := validateBatch_ok h
  obtain ⟨fields, rfl, hfields⟩ := hf.fields
  obtain ⟨x, hx⟩ := Json.get_of_hasFields hfields (k := "record_count") (by decide)
  have hcount := hf.count
  rw [Json.getD, hx, Option.getD_some,
    Json.eqInt_of_exact (exact_of_validateBatch h (by decide) (by decide) hx)] at hcount
  rw [hx]
  rcases hcount with rfl | ⟨b, rfl, hb⟩
  · exact Or.inl ⟨_, rfl⟩
  · cases b with
    | true => exact Or.inr rfl
    | false => exact absurd (List.length_eq_zero_iff.mp (Int.ofNat_eq_zero.mp hb.symm)) hf.nonempty

theorem typed_iff (h : validateBatch batch = .ok ()) :
    Typed batch ↔ batch.get "record_count" ≠ some (.bool true) := by
  obtain ⟨hversion, hcreated⟩ := header_of_validateBatch h
  constructor
  · intro ht he
    obtain ⟨n, hn⟩ := ht.count
    cases hn.symm.trans he
  · exact fun hne => ⟨hversion, (count_of_validateBatch h).resolve_right hne, hcreated⟩

end Batches

/-- The validators and their typed versions differ exactly on a record whose version is true and on
a batch whose count is true; every other accepted object is typed. -/
theorem typed_verdicts_iff [Ed25519] (v : Json) (verifySignature : Bool) :
    ((Records.validateRecordTyped v verifySignature = .ok () ↔
        Records.validateRecord v verifySignature = .ok () ∧
          v.get "version" ≠ some (.bool true)) ∧
      (Records.validateRecord v verifySignature = .ok () ∧ Records.Typed v ↔
        Records.validateRecord v verifySignature = .ok () ∧
          v.get "version" ≠ some (.bool true))) ∧
    (Batches.validateBatchTyped v = .ok () ↔
        Batches.validateBatch v = .ok () ∧ v.get "record_count" ≠ some (.bool true)) ∧
      (Batches.validateBatch v = .ok () ∧ Batches.Typed v ↔
        Batches.validateBatch v = .ok () ∧ v.get "record_count" ≠ some (.bool true)) := by
  refine ⟨⟨?_, and_congr_right Records.typed_iff⟩, ?_, and_congr_right Batches.typed_iff⟩
  · rw [Records.validateRecordTyped_ok]
    refine and_congr_right fun h => ⟨fun hv he => ?_, fun hne => ?_⟩
    · cases hv.symm.trans he
    · exact (Records.version_of_validateRecord h).resolve_right hne
  · rw [Batches.validateBatchTyped_ok]
    refine and_congr_right fun h => ?_
    rw [← Batches.typed_iff h]
    exact ⟨fun ht => ⟨ht.1, ht.2, (Batches.header_of_validateBatch h).2⟩,
      fun ht => ⟨ht.version, ht.count⟩⟩

section Sample

def booleanVersionSignature : PyStr :=
  "hZAwBsmMJSjfDjXUNsMVBHGZTsKDkvOhBWVN7Td0lG1ZmIr+oRDIsTcyYdywaKFGbYzeznrw4JNo1dlYwZTgAw=="

@[reducible] def booleanVersionKeys : Ed25519 :=
  keyring samplePublicKey
    [("f95e8900ca994458a9bf8a167fff7e5114ba2c803552389b5242c626ccbfe3fb",
      booleanVersionSignature)]

/-- A signed record whose version is `true`. -/
def booleanVersionRecord : Json :=
  sampleRecord (.bool true) "claim" .null (.arr []) booleanVersionSignature
    "68a2e8cda8fd19949cac966cd8783b6e30a48471db467852994e83ae7b189b6f"

/-- The batch of the conformance vector with `true` as its count. -/
def booleanCountBatch : Json :=
  .obj [
    ("schema", .str "hap.batch"), ("version", .int 3), ("created_at", .int 1721332920),
    ("network", .str "signet"), ("record_count", .bool true),
    ("record_ordering", .str "record_id_lexicographic_v1"),
    ("record_ids",
      .arr [.str "fe4fd10287faaea0736fe25fb849264527c0387bc8968786a9c19d8fa5aefeb5"]),
    ("merkle_root", .str "fe4fd10287faaea0736fe25fb849264527c0387bc8968786a9c19d8fa5aefeb5"),
    ("algorithms", .obj [
      ("record_id", .str "sha256"), ("batch_id", .str "sha256"),
      ("merkle_parent", .str "sha256(left||right)"),
      ("canonical_json", .str "hap-canonical-json-v1")]),
    ("batch_id", .str "5fdc1b022a302982b061a2a26a860998cb67508f5a6de5c787f5fb15f20cfb77"),
    ("payload_hex", .str "4849535403015fdc1b022a302982b061a2a26a860998cb67508f5a6de5c787f5fb15f20cfb77")]

theorem booleans_accepted :
    (@Records.validateRecord booleanVersionKeys booleanVersionRecord true = .ok () ∧
      ¬ Records.Typed booleanVersionRecord ∧
      @Records.validateRecordTyped booleanVersionKeys booleanVersionRecord true ≠ .ok ()) ∧
    Batches.validateBatch booleanCountBatch = .ok () ∧ ¬ Batches.Typed booleanCountBatch ∧
      Batches.validateBatchTyped booleanCountBatch ≠ .ok () := by
  have hrecord : @Records.validateRecord booleanVersionKeys booleanVersionRecord true = .ok () :=
    Records.sampleRecord_valid (by decide +kernel)
  have hbatch : Batches.validateBatch booleanCountBatch = .ok () := by decide +kernel
  refine ⟨⟨hrecord, fun h => ?_, fun h => ?_⟩, hbatch, fun h => ?_, fun h => ?_⟩
  · cases h.version
  · cases ((@Records.validateRecordTyped_ok booleanVersionKeys _ _).mp h).2
  · obtain ⟨n, hn⟩ := h.count
    cases hn
  · obtain ⟨-, -, n, hn⟩ := Batches.validateBatchTyped_ok.mp h
    cases hn

end Sample

end HistoryAnchor

import HistoryAnchor.Protocol.Batches

/-! # Packages

A package is a batch with its records in the committed order, under its own hash.
-/

namespace HistoryAnchor

open Python

variable [Ed25519]

namespace Packages

def packageSchema : PyStr := "hap.package"
def packageVersion : ℤ := 1
def packageFields : List PyStr := ["schema", "version", "batch", "records", "package_id"]

def packageBody (package : Json) : Json := package.erase "package_id"

def calculatePackageId (package : Json) : Py PyStr := do
  return Codec.sha256Hex (← Codec.canonicalJsonBytes (packageBody package))

/-- Validate records one after another; no identifier may repeat. -/
def validateRecords (type : ExcType) (duplicate : PyStr) (records : List Json) :
    Py (List PyStr) :=
  records.foldlM (fun ids record => do
    Records.validateRecord record true
    let recordId := record.text "record_id"
    require (recordId ∉ ids) type duplicate
    return ids ++ [recordId]) []

def validatePackage (package : Json) : Py Unit := do
  match package with
  | .obj fields =>
    require (Json.hasFields fields packageFields) .packageValidationError
      "package fields do not match the versioned schema"
    require ((package.getD "schema" .null).eqStr packageSchema ∧
      (package.getD "version" .null).eqInt packageVersion) .packageValidationError
      "unsupported package schema or version"
    let batch := package.getD "batch" .null
    require (batch matches .obj _) .packageValidationError "package batch is required"
    Batches.validateBatch batch
    let records := package.items "records"
    require (records ≠ []) .packageValidationError "package records must be a non-empty list"
    require ((batch.getD "record_count" .null).eqInt records.length) .packageValidationError
      "package record count does not match batch"
    let ids ← validateRecords .packageValidationError "package contains a duplicate record" records
    require (ids = (batch.items "record_ids").map Json.strValue) .packageValidationError
      "package records are not in the exact committed batch order"
    let calculated ← calculatePackageId package
    require ((package.getD "package_id" .null).eqStr calculated) .packageValidationError
      "package_id does not match package contents"
  | _ => raise .packageValidationError "package fields do not match the versioned schema"

def createPackage (batch : Json) (records : List Json) : Py Json := do
  let ordered ← (batch.items "record_ids").mapM fun recordId =>
    match records.reverse.find? fun r => r.text "record_id" = recordId.strValue with
    | some record => .ok record
    | none => raise .keyError recordId.strValue
  let body : List (PyStr × Json) :=
    [("schema", .str packageSchema), ("version", .int packageVersion), ("batch", batch),
     ("records", .arr ordered)]
  let packageId ← calculatePackageId (.obj body)
  let identity : List (PyStr × Json) := [("package_id", .str packageId)]
  let package := Json.obj (body ++ identity)
  validatePackage package
  return package

structure Facts (package b : Json) (rs : List Json) (id : PyStr) : Prop where
  fields : ∃ fields, package = .obj fields ∧ Json.hasFields fields packageFields = true
  schema : package.get "schema" = some (.str packageSchema)
  version : (package.getD "version" .null).eqInt packageVersion = true
  batch : package.get "batch" = some b
  validBatch : Batches.validateBatch b = .ok ()
  records : package.get "records" = some (.arr rs)
  validRecords : ∀ r ∈ rs, Records.validateRecord r true = .ok ()
  ids : rs.map (Json.text · "record_id") = (b.items "record_ids").map Json.strValue
  packageId : package.get "package_id" = some (.str id)
  calculated : calculatePackageId package = .ok id

theorem validateRecords_iff {type : ExcType} {duplicate : PyStr} {records : List Json}
    {ids : List PyStr} : validateRecords type duplicate records = .ok ids ↔
      (∀ r ∈ records, Records.validateRecord r true = .ok ()) ∧ ids.Nodup ∧
        ids = records.map (Json.text · "record_id") := by
  apply foldlM_distinct_iff _ List.nodup_nil
  intro ids record ids'
  simp only [bind_ok, require_ok, exists_unit, pure, Except.pure, Except.ok.injEq]

theorem validatePackage_iff {fields : List (PyStr × Json)} :
    validatePackage (.obj fields) = .ok () ↔ ∃ b records ids id,
      Json.hasFields fields packageFields = true ∧
      ((Json.obj fields).getD "schema" .null).eqStr packageSchema ∧
      ((Json.obj fields).getD "version" .null).eqInt packageVersion ∧
      (Json.obj fields).getD "batch" .null = b ∧ (b matches .obj _) ∧
      Batches.validateBatch b = .ok () ∧
      (Json.obj fields).items "records" = records ∧ records ≠ [] ∧
      (b.getD "record_count" .null).eqInt records.length ∧
      validateRecords .packageValidationError "package contains a duplicate record" records =
        .ok ids ∧
      ids = (b.items "record_ids").map Json.strValue ∧
      calculatePackageId (.obj fields) = .ok id ∧
      ((Json.obj fields).getD "package_id" .null).eqStr id := by
  simp only [validatePackage, bind_ok, require_ok, exists_unit]
  constructor
  · rintro ⟨hf, ⟨hs, hv⟩, ho, hb, hne, hn, ids, hids, hord, id, hc, hid⟩
    exact ⟨_, _, ids, id, hf, hs, hv, rfl, ho, hb, rfl, hne, hn, hids, hord, hc, hid⟩
  · rintro ⟨_, _, ids, id, hf, hs, hv, rfl, ho, hb, rfl, hne, hn, hids, hord, hc, hid⟩
    exact ⟨hf, ⟨hs, hv⟩, ho, hb, hne, hn, ids, hids, hord, id, hc, hid⟩

theorem validatePackage_ok {package : Json} (h : validatePackage package = .ok ()) :
    ∃ batch records id, Facts package batch records id := by
  cases package with
  | obj fields =>
    obtain ⟨_, _, ids, calculated, hf, hs, hv, rfl, -, hb, rfl, hne, -, hids, hord, hc, hid⟩ :=
      validatePackage_iff.mp h
    obtain ⟨ph, hph⟩ := Json.get_of_hasFields hf (k := "schema") (by decide)
    obtain ⟨bh, hbh⟩ := Json.get_of_hasFields hf (k := "batch") (by decide)
    obtain ⟨ih, hih⟩ := Json.get_of_hasFields hf (k := "package_id") (by decide)
    rw [Json.getD, hph, Option.getD_some, Batches.eqStr_iff] at hs
    rw [Json.getD, hih, Option.getD_some, Batches.eqStr_iff] at hid
    rw [Json.getD, hbh, Option.getD_some] at hb hord
    obtain ⟨hr, -, rfl⟩ := validateRecords_iff.mp hids
    exact ⟨bh, _, calculated, ⟨fields, rfl, hf⟩, by rw [hph, hs], hv, hbh, hb, Json.items_ne_nil hne, hr,
      hord, by rw [hih, hid], hc⟩
  | _ => exact (raise_ne_ok h).elim

end Packages

end HistoryAnchor

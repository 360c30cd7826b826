import HistoryAnchor.Protocol.Packages

/-! # Anchor references and snapshots

Peers exchange anchors as unverified references; a snapshot is a closed set of
records, batches and references under its own hash.
-/

namespace HistoryAnchor

open Python

namespace Anchors

def allowedStatuses : List PyStr :=
  ["unverified", "broadcast", "confirmed", "reorganised", "invalid"]

def anchorFields : List PyStr :=
  ["txid", "vout", "batch_id", "network", "status", "anchored_at", "block_hash", "block_height"]

/-- `None` or a digest. -/
def digestOrNull (value : Json) (field : PyStr) : Py Unit := do
  match value with
  | .null => return ()
  | _ => let _ ← requireDigest .anchorValidationError value field

/-- `None` or a non-negative integer. -/
def naturalOrNull : Json → Bool
  | .null => true
  | v => v.isNatural

def validateAnchorReference (anchor : Json) : Py Unit := do
  match anchor with
  | .obj fields =>
    require (Json.hasFields fields anchorFields) .anchorValidationError
      "anchor fields do not match the versioned schema"
    let _ ← requireDigest .anchorValidationError (anchor.getD "txid" .null) "txid"
    require ((anchor.getD "vout" .null).isNatural) .anchorValidationError
      "vout must be a non-negative integer"
    let _ ← requireDigest .anchorValidationError (anchor.getD "batch_id" .null) "batch_id"
    let network ← memberOf (anchor.getD "network" .null) Batches.allowedNetworks
    require (network = true) .anchorValidationError "unsupported anchor network"
    let status ← memberOf (anchor.getD "status" .null) allowedStatuses
    require (status = true) .anchorValidationError "unsupported anchor status"
    require ((anchor.getD "anchored_at" .null).isNatural) .anchorValidationError
      "anchored_at must be a non-negative integer"
    digestOrNull (anchor.getD "block_hash" .null) "block_hash"
    require (naturalOrNull (anchor.getD "block_height" .null)) .anchorValidationError
      "block_height must be null or a non-negative integer"
  | _ => raise .anchorValidationError "anchor fields do not match the versioned schema"

end Anchors

namespace Archive

def snapshotSchema : PyStr := "hap.snapshot"
def snapshotVersion : ℤ := 1

def snapshotFields : List PyStr :=
  ["schema", "version", "created_at", "records", "batches", "anchors", "snapshot_id"]

def snapshotBody (snapshot : Json) : Json := snapshot.erase "snapshot_id"

def calculateSnapshotId (snapshot : Json) : Py PyStr := do
  return Codec.sha256Hex (← Codec.canonicalJsonBytes (snapshotBody snapshot))

/-- The members of an exported snapshot before it has its identifier. -/
def exportedMembers (createdAt : ℤ) (records batches anchors : List Json) : List (PyStr × Json) :=
  [("schema", .str snapshotSchema), ("version", .int snapshotVersion),
   ("created_at", .int createdAt), ("records", .arr records), ("batches", .arr batches),
   ("anchors", .arr anchors)]

/-- Validate batches one after another against the snapshot's records. -/
def validateBatches (recordIds : List PyStr) (batches : List Json) : Py (List PyStr) :=
  batches.foldlM (fun batchIds batch => do
    Batches.validateBatch batch
    let batchId := batch.text "batch_id"
    require (batchId ∉ batchIds) .snapshotValidationError "snapshot contains a duplicate batch"
    require (∀ r ∈ batch.items "record_ids", r.strValue ∈ recordIds) .snapshotValidationError
      "batch references a record missing from the snapshot"
    return batchIds ++ [batchId]) []

/-- Validate anchor references one after another against the snapshot's batches. -/
def validateAnchors (batchIds : List PyStr) (anchors : List Json) : Py (List (PyStr × ℕ)) :=
  anchors.foldlM (fun points anchor => do
    Anchors.validateAnchorReference anchor
    let point := (anchor.text "txid", anchor.nat "vout")
    require (point ∉ points) .snapshotValidationError "snapshot contains a duplicate anchor output"
    require (anchor.text "batch_id" ∈ batchIds) .snapshotValidationError
      "anchor references a batch missing from the snapshot"
    return points ++ [point]) []

def validateTargets (recordIds : List PyStr) (records : List Json) : Py Unit :=
  forM records fun record =>
    let target := record.text "target_record_id"
    require (target = [] ∨ target ∈ recordIds) .snapshotValidationError
      ("snapshot is missing target record " ++ target)

def requireList (snapshot : Json) (field : PyStr) : Py Unit :=
  require (snapshot.getD field .null matches .arr _) .snapshotValidationError
    (field ++ " must be a list")

def validateSnapshot [Ed25519] (snapshot : Json) : Py Unit := do
  match snapshot with
  | .obj fields =>
    require (Json.hasFields fields snapshotFields) .snapshotValidationError
      "snapshot fields do not match the versioned schema"
    require ((snapshot.getD "schema" .null).eqStr snapshotSchema ∧
      (snapshot.getD "version" .null).eqInt snapshotVersion) .snapshotValidationError
      "unsupported snapshot schema or version"
    require ((snapshot.getD "created_at" .null).isNatural) .snapshotValidationError
      "snapshot created_at must be a non-negative integer"
    forM (["records", "batches", "anchors"] : List PyStr) (requireList snapshot)
    let calculated ← calculateSnapshotId snapshot
    require ((snapshot.getD "snapshot_id" .null).eqStr calculated) .snapshotValidationError
      "snapshot_id does not match snapshot contents"
    let records := snapshot.items "records"
    let recordIds ← Packages.validateRecords .snapshotValidationError
      "snapshot contains a duplicate record" records
    validateTargets recordIds records
    let batchIds ← validateBatches recordIds (snapshot.items "batches")
    let _ ← validateAnchors batchIds (snapshot.items "anchors")
  | _ => raise .snapshotValidationError "snapshot fields do not match the versioned schema"

end Archive

end HistoryAnchor

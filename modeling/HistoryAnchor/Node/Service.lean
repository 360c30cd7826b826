import HistoryAnchor.Node.Calls

/-! # The service

The operations of `HistoryAnchorService` that write to the store. Each is the
sequence of calls that the source makes, with its checks and its exceptions.
-/

namespace HistoryAnchor

open Python Effects

variable [Ed25519]

namespace Service

/-- Raise `ServiceError(str(exc))` for any exception. -/
def wrapped {α : Type} (x : Py α) : Node α := .ofExcept (rethrow x fun e => ⟨.serviceError, e.text⟩)

def serviceError {α : Type} (text : PyStr) : Node α := .raise ⟨.serviceError, text⟩

def missingDependency {α : Type} (text : PyStr) : Node α := .raise ⟨.missingDependencyError, text⟩

/-- Raise a `ServiceError` unless the condition holds. -/
def check (c : Prop) [Decidable c] (text : PyStr) : Node Unit :=
  .ofExcept (require c .serviceError text)

/-- `existed is None` or a row count above zero. -/
inductive Status | accepted | alreadyExists
  deriving DecidableEq

/-- Only a `ValueError` becomes a `ServiceError`. -/
def submitException (e : Exc) : Exc :=
  if e.type.isValueError then ⟨.serviceError, e.text⟩ else e

def submitRecord (record : Json) (requireLocalTarget : Bool) (localPolicy : Json → Py Unit) :
    Node Status :=
  match h : Records.validateRecord record true with
  | .error e => .raise (submitException e)
  | .ok () => do
    .ofExcept (rethrow (localPolicy record) submitException)
    let r : Record := ⟨record, h⟩
    let existing ← storage (.record r.recordId)
    if existing.isSome then return .alreadyExists
    if requireLocalTarget ∧ r.target ≠ [] then
      let target ← storage (.record r.target)
      if target.isNone then serviceError "target_record_id does not exist in this index"
    let _ ← storage (.addRecord r)
    return .accepted

def noPolicy (_ : Json) : Py Unit := .ok ()

/-- One pass over the records still pending when it starts: a record waits while its target is
pending and not stored. -/
def importPass : List Json → List Json → ℕ → Node (List Json × ℕ)
  | [], pending, imported => return (pending, imported)
  | record :: rest, pending, imported => do
    let target := record.text "target_record_id"
    let stored ← if target = [] then pure true else
      (fun r : Option Record => r.isSome) <$> storage (.record target)
    if !stored ∧ target ∈ pending.map (Json.text · "record_id") then
      importPass rest pending imported
    else
      let result ← submitRecord record false noPolicy
      let recordId := record.text "record_id"
      importPass rest (pending.filter fun r => r.text "record_id" ≠ recordId)
        (if result = .accepted then imported + 1 else imported)

/-- `while pending`; every pass that does not raise shrinks the list. -/
def importPending (unresolved : PyStr) : ℕ → List Json → ℕ → Node ℕ
  | _, [], imported => return imported
  | 0, _ :: _, _ => serviceError unresolved
  | fuel + 1, pending@(_ :: _), imported => do
    let (rest, imported) ← importPass pending pending imported
    if rest.length = pending.length then serviceError unresolved
    importPending unresolved fuel rest imported

def importBatch (batch : Json) : Node Status :=
  match h : Batches.validateBatch batch with
  | .error e => serviceError e.text
  | .ok () => do
    let b : Batch := ⟨batch, h⟩
    let missing ← b.recordIds.foldlM (fun (n : ℕ) recordId => do
      let r ← storage (.record recordId)
      return if r.isNone then n + 1 else n) 0
    .ofExcept (require (missing = 0) .missingDependencyError
      ("batch references " ++ decimal missing ++ " records that are not present locally"))
    let created ← storage (.addBatch b)
    return if created then .accepted else .alreadyExists

/-- The number of records imported, and whether the batch is new. -/
def importPackage (package : Json) : Node (ℕ × Status) := do
  wrapped (Packages.validatePackage package)
  let records := package.items "records"
  let imported ← importPending "package record graph contains unresolved targets" records.length
    records 0
  let status ← importBatch (package.getD "batch" .null)
  return (imported, status)

def recordsByIds : List PyStr → Node (List Record)
  | [] => return []
  | recordId :: rest => do
    let record ← storage (.record recordId)
    let records ← recordsByIds rest
    return record.toList ++ records

def packageForBatch (batchId : PyStr) : Node (Option Json) := do
  let some batch ← storage (.batch batchId) | return none
  let records ← recordsByIds batch.recordIds
  if (batch.body.getD "record_count" .null).eqInt records.length then
    let package ← .ofExcept (Packages.createPackage batch.body (records.map Record.body))
    return some package
  else missingDependency "local batch is missing one or more committed records"

/-- What is stored for a peer's reference: a row that was checked locally keeps its state. -/
def localReference (anchor : Json) (existing : Option Anchor) : Anchor :=
  let reference : Anchor :=
    { txid := anchor.text "txid"
      vout := anchor.nat "vout"
      batchId := anchor.text "batch_id"
      network := anchor.text "network"
      status := .unverified
      anchoredAt := anchor.nat "anchored_at"
      blockHash := match anchor.get "block_hash" with
        | some (.str s) => some s
        | _ => none
      blockHeight := match anchor.get "block_height" with
        | some (.int n) => some n
        | _ => none }
  match existing with
  | none => reference
  | some row =>
    if row.status = .unverified then reference
    else
      { reference with
        status := row.status
        anchoredAt := row.anchoredAt
        blockHash := row.blockHash
        blockHeight := row.blockHeight }

def importAnchorReference (anchor : Json) : Node Status := do
  wrapped (Anchors.validateAnchorReference anchor)
  let some batch ← storage (.batch (anchor.text "batch_id"))
    | missingDependency "anchor batch is not present locally"
  check (anchor.text "network" = batch.network) "anchor network does not match batch"
  let existing ← storage (.anchor (anchor.text "txid", anchor.nat "vout"))
  check (existing.all fun row => row.batchId = anchor.text "batch_id")
    "anchor txid is already associated with a different batch"
  let created ← storage (.addAnchor (localReference anchor existing))
  return if created then .accepted else .alreadyExists

def countAccepted (f : Json → Node Status) (values : List Json) : Node ℕ :=
  values.foldlM (fun n v => do
    let status ← f v
    return if status = .accepted then n + 1 else n) 0

def exportSnapshot : Node Json := do
  let createdAt ← now
  let records ← storage (.records 10000000)
  let batches ← storage (.batches 10000000)
  let anchors ← storage .anchors
  let members := Archive.exportedMembers createdAt (records.map Record.body)
    (batches.reverse.map Batch.body) (anchors.map Anchor.json)
  let snapshotId ← .ofExcept (Archive.calculateSnapshotId (.obj members))
  let identity : List (PyStr × Json) := [("snapshot_id", .str snapshotId)]
  let snapshot := Json.obj (members ++ identity)
  .ofExcept (Archive.validateSnapshot snapshot)
  return snapshot

def importSnapshot (snapshot : Json) : Node (ℕ × ℕ × ℕ) := do
  .ofExcept (Archive.validateSnapshot snapshot)
  let records := snapshot.items "records"
  let imported ← importPending "snapshot record graph contains unresolved targets" records.length
    records 0
  let batches ← countAccepted importBatch (snapshot.items "batches")
  let anchors ← countAccepted importAnchorReference (snapshot.items "anchors")
  return (imported, batches, anchors)

/-- A manifest that was built here; `create_batch_manifest` validates it. -/
def buildBatch (recordIds : List PyStr) (network : PyStr) (createdAt : ℤ) : Py Batch := do
  let body ← Batches.createBatchManifest recordIds network createdAt
  match h : Batches.validateBatch body with
  | .ok () => return ⟨body, h⟩
  | .error e => .error e

/-- The longest prefix of the candidates whose estimated size fits. -/
def selectRecords (maxPackageBytes : ℤ) : List Record → List Record → ℤ → Py (List Record)
  | [], chosen, _ => .ok chosen
  | r :: rest, chosen, estimated => do
    let bytes ← Codec.canonicalJsonBytes r.body
    let size : ℤ := bytes.length + 96
    if maxPackageBytes < estimated + size then
      if chosen ≠ [] then return chosen
      raise .serviceError "the next record cannot fit within the configured package limit"
    selectRecords maxPackageBytes rest (chosen ++ [r]) (estimated + size)

/-- Drop records from the end until the package fits; the records come last first. -/
def fitPackage (network : PyStr) (createdAt maxPackageBytes : ℤ) : List Record → Py Batch
  | [] => raise .serviceError "no record can fit within the configured package limit"
  | r :: rest => do
    let records := (r :: rest).reverse
    let batch ← buildBatch (records.map Record.recordId) network createdAt
    let package ← Packages.createPackage batch.body (records.map Record.body)
    let bytes ← Codec.canonicalJsonBytes package
    if (bytes.length : ℤ) ≤ maxPackageBytes then return batch
    fitPackage network createdAt maxPackageBytes rest

def createBatch (network : PyStr) (limit maxPackageBytes : ℤ) : Node Batch := do
  let candidates ← storage (.unbatchedRecords limit)
  check (!candidates.isEmpty) "there are no unbatched records"
  let records ← .ofExcept (selectRecords maxPackageBytes candidates [] 4096)
  let createdAt ← now
  let batch ← .ofExcept (fitPackage network createdAt maxPackageBytes records.reverse)
  let _ ← storage (.addBatch batch)
  return batch

def createDirectBatch (recordId network : PyStr) : Node Batch := do
  let record ← storage (.record recordId)
  check record.isSome "record not found"
  let createdAt ← now
  let batch ← .ofExcept (buildBatch [recordId] network createdAt)
  let _ ← storage (.addBatch batch)
  return batch

def anchorBatch (batchId : PyStr) (allowMainnet : Bool) : Node Anchor := do
  let some batch ← storage (.batch batchId) | serviceError "batch not found"
  .ofExcept (Batches.validateBatch batch.body)
  check (batch.network ≠ "mainnet" ∨ allowMainnet)
    "mainnet anchoring is disabled; explicitly enable it after commissioning"
  let rpcNetwork ← BitcoinRPC.network
  check (rpcNetwork = batch.network)
    ("Bitcoin RPC is on " ++ rpcNetwork ++ ", but this batch was prepared for " ++ batch.network)
  let broadcast ← .perform (.outside (.broadcastOpReturn batch.payloadHex))
  let anchoredAt ← now
  let anchor : Anchor :=
    { txid := broadcast.1
      vout := broadcast.2
      batchId := batchId
      network := rpcNetwork
      status := .broadcast
      anchoredAt := anchoredAt
      blockHash := none
      blockHeight := none }
  let _ ← storage (.addAnchor anchor)
  return anchor

def confirmedAnchor (c : Commitment) : Anchor where
  txid := c.txid
  vout := c.vout
  batchId := c.batchId
  network := c.network
  status := .confirmed
  anchoredAt := c.blockTime
  blockHash := some c.blockHash
  blockHeight := some c.blockHeight

def registerScannedAnchor (batchId : PyStr) (p : Point) : Node Anchor := do
  let some batch ← storage (.batch batchId)
    | missingDependency "Bitcoin commitment package has not been retrieved yet"
  let rows ← storage (.commitments false (some batchId) 10000)
  match rows.filter fun c => c.point = p with
  | [] => missingDependency "Bitcoin commitment is not present in the local chain scan"
  | matches_@(commitment :: _) =>
    if commitment.payloadHex ≠ batch.payloadHex then
      serviceError "scanned Bitcoin payload does not match the retrieved batch"
    let anchor := { confirmedAnchor commitment with batchId := batchId, txid := p.1 }
    let _ ← storage (.addAnchor anchor)
    forM matches_ fun c => storage (.markCommitmentResolved c.point)
    return anchor

end Service

end HistoryAnchor

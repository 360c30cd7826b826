import HistoryAnchor.Node.Service

/-! # Chain scanning and package discovery

`scan_bitcoin` with its ancestor search, and `resolve_commitments`. The loops over
the transactions and outputs of a block are folds whose bodies carry the number
of commitments found.
-/

namespace HistoryAnchor

open Python Effects

variable [Ed25519]

namespace Discovery

structure ScanResult where
  network : PyStr
  startHeight : ℤ
  endHeight : ℤ
  blocksScanned : ℤ
  commitmentsFound : ℕ
  reorgRewindHeight : Option ℤ
  deriving DecidableEq

/-- The search below a height: the number counts the candidates left. -/
def ancestorBelow : ℕ → Node ℤ
  | 0 => return -1
  | candidate + 1 => do
    let stored ← storage (.scannedBlock candidate)
    match stored with
    | none => ancestorBelow candidate
    | some row =>
      match ← (BitcoinRPC.blockHash candidate).outcome with
      | .error _ => ancestorBelow candidate
      | .ok activeHash =>
        if activeHash = row.blockHash then return candidate
        else ancestorBelow candidate

def findCommonAncestor (height : ℤ) : Node ℤ := ancestorBelow (height + 1).toNat

/-- Rewind to the common ancestor at or below a height; the height to scan next is returned. -/
def rewindTo (startHeight height : ℤ) : Node (Option ℤ × ℤ) := do
  let ancestor ← findCommonAncestor height
  storage (.rewindBitcoinScan ancestor)
  return (some ancestor, max startHeight (ancestor + 1))

def entry (startHeight tip : ℤ) : Node (Option ℤ × ℤ) := do
  let storedTip ← storage .latestScannedBlock
  match storedTip with
  | none => return (none, max 0 startHeight)
  | some row =>
    if row.height ≤ tip then
      match ← (BitcoinRPC.blockHash row.height).outcome with
      | .ok activeHash =>
        if activeHash = row.blockHash then return (none, row.height + 1)
        else rewindTo startHeight row.height
      | .error _ => rewindTo startHeight row.height
    else rewindTo startHeight tip

/-- A payload that the scanner accepts: an `OP_RETURN` push that decodes. -/
def acceptedPayload (scriptHex : PyStr) : Option (PyStr × Bitcoin.AnchorPayload) :=
  match Bitcoin.extractPayloadFromScript scriptHex with
  | none => none
  | some payloadHex =>
    if payloadHex = [] then none
    else
      match Bitcoin.decodeAnchorPayload payloadHex with
      | .ok payload => some (payloadHex, payload)
      | .error _ => none

structure BlockContext where
  network : PyStr
  height : ℤ
  blockHash : PyStr
  blockTime : ℤ

def BlockContext.row (b : BlockContext) (p : Point) (payloadHex : PyStr)
    (payload : Bitcoin.AnchorPayload) (discoveredAt : ℤ) : Commitment where
  txid := p.1
  vout := p.2
  batchId := payload.manifestHash
  payloadHex := payloadHex
  network := b.network
  blockHeight := b.height
  blockHash := b.blockHash
  blockTime := b.blockTime
  status := "confirmed"
  discoveredAt := discoveredAt
  resolved := false

/-- Store a commitment, and confirm its anchor if the batch is already local. -/
def recordCommitment (b : BlockContext) (p : Point) (payloadHex : PyStr)
    (payload : Bitcoin.AnchorPayload) : Node Unit := do
  let discoveredAt ← now
  let _ ← storage (.addCommitment (b.row p payloadHex payload discoveredAt))
  let batch ← storage (.batch payload.manifestHash)
  if batch.any fun local_ => local_.payloadHex = payloadHex then
    let _ ← Service.registerScannedAnchor payload.manifestHash p

def scanOutput (b : BlockContext) (txid : PyStr) (found : ℕ) (output : TxOut × ℕ) : Node ℕ :=
  match acceptedPayload output.1.scriptHex with
  | none => return found
  | some (payloadHex, payload) => do
    recordCommitment b (txid, output.1.number output.2) payloadHex payload
    return found + 1

def scanTransaction (b : BlockContext) (found : ℕ) (tx : Tx) : Node ℕ :=
  match tx.txid with
  | none => return found
  | some txid => tx.vout.zipIdx.foldlM (scanOutput b txid) found

def scanBlock (network : PyStr) (found : ℕ) (height : ℤ) : Node ℕ := do
  let blockHash ← BitcoinRPC.blockHash height
  let block ← BitcoinRPC.block blockHash
  let found ← block.tx.foldlM
    (scanTransaction ⟨network, height, blockHash, block.blockTime⟩) found
  storage (.addScannedBlock ⟨height, blockHash, block.blockTime⟩)
  return found

/-- `range(first, last + 1)`. -/
def heights (first last : ℤ) : List ℤ :=
  (List.range (last + 1 - first).toNat).map fun i : ℕ => first + i

def scanBitcoin (startHeight maxBlocks : ℤ) : Node ScanResult := do
  let network ← BitcoinRPC.network
  let tip ← BitcoinRPC.blockCount
  let (rewindHeight, nextHeight) ← entry startHeight tip
  if tip < nextHeight then
    return ⟨network, nextHeight, tip, 0, 0, rewindHeight⟩
  let endHeight := min tip (nextHeight + max 1 maxBlocks - 1)
  let found ← (heights nextHeight endHeight).foldlM (scanBlock network) 0
  return ⟨network, nextHeight, endHeight, endHeight - nextHeight + 1, found, rewindHeight⟩

def downloadPackage (peer batchId : PyStr) : Node Json := do
  let value ← .perform (.outside (.getPackage peer batchId))
  Service.check (value matches .obj _) "peer package response is not a JSON object"
  .ofExcept (Packages.validatePackage value)
  return value

structure PeerError where
  batchId : PyStr
  peer : PyStr
  error : PyStr

/-- Ask the peers in turn until one serves the package of the batch. -/
def fetchPackage (batchId : PyStr) :
    List PyStr → List PeerError → Node (Option Json × List PeerError)
  | [], errors => return (none, errors)
  | peer :: peers, errors => do
    let attempt : Node Json := do
      let candidate ← downloadPackage peer batchId
      Service.check ((candidate.getD "batch" .null).text "batch_id" = batchId)
        "peer returned a package for the wrong Bitcoin commitment"
      return candidate
    match ← attempt.outcome with
    | .ok package => return (some package, errors)
    | .error e => fetchPackage batchId peers (errors ++ [⟨batchId, peer, e.text⟩])

structure ResolveResult where
  unresolvedExamined : ℕ
  resolved : ℕ
  stillMissing : ℕ
  errors : List PeerError

def resolveCommitment (peers : List PyStr) (result : ResolveResult) (c : Commitment) :
    Node ResolveResult := do
  let (package, errors) ← fetchPackage c.batchId peers result.errors
  match package with
  | none => return { result with stillMissing := result.stillMissing + 1, errors := errors }
  | some package =>
    let _ ← Service.importPackage package
    let _ ← Service.registerScannedAnchor c.batchId c.point
    storage (.markCommitmentResolved c.point)
    return { result with resolved := result.resolved + 1, errors := errors }

def resolveCommitments (peers : List PyStr) (limit : ℤ) : Node ResolveResult := do
  let unresolved ← storage (.commitments true none limit)
  unresolved.foldlM (resolveCommitment peers) ⟨unresolved.length, 0, 0, []⟩

end Discovery

end HistoryAnchor

import HistoryAnchor.Effects.Scripts
import HistoryAnchor.Node.Discovery

/-! # Verification of single anchors

`verify_bitcoin_anchor` with what it asks Bitcoin Core: the transaction, wherever it is
found, and the header of its block. The calls of the node are among the calls
of these programs.
-/

namespace HistoryAnchor

open Python Effects Prog

structure TxInfo where
  vout : List TxOut
  confirmations : Option ℤ
  blockhash : Option PyStr

structure HeaderInfo where
  height : Option ℤ
  time : Option ℤ
  mediantime : Option ℤ
  confirmations : Option ℤ

/-- The methods of Bitcoin Core that the verification uses beside those of the scanner. -/
inductive TxCall : Type → Type
  | gettransaction (txid : PyStr) : TxCall TxInfo
  | getrawtransaction (txid : PyStr) (blockHash : Option PyStr) : TxCall TxInfo
  | getblockheader (blockHash : PyStr) : TxCall HeaderInfo

variable [Ed25519]

inductive VerifyCall (β : Type) : Type
  | node (c : NodeCall β)
  | tx (c : TxCall β)

abbrev Verifying := Prog VerifyCall Exc

variable {α β : Type}

def node (p : Node α) : Verifying α := p.embed fun _ c => .node c

omit [Ed25519] in
/-- What Bitcoin Core may answer about transactions and headers. -/
abbrev TxAnswers := ∀ ⦃β : Type⦄, TxCall β → Py β → Prop

/-- The environment of the node, with Bitcoin Core answering the other calls within `txAnswers`. -/
def verifying (rpcAnswers : Answers) (txAnswers : TxAnswers) : Handler VerifyCall Exc Store :=
  fun _ call s x s' =>
    match call with
    | .node c => environment rpcAnswers c s x s'
    | .tx c => txAnswers c x ∧ s' = s

namespace BitcoinRPC

def tx (c : TxCall β) : Verifying β := .perform (.tx c)

/-- The wallet's transaction, or any other one if the wallet fails. -/
def transaction (txid : PyStr) (blockHash : Option PyStr) : Verifying TxInfo := do
  match ← (tx (.gettransaction txid)).outcome with
  | .ok info => return info
  | .error e =>
    if e.type = .bitcoinRPCError then tx (.getrawtransaction txid (blockHash.filter (· ≠ [])))
    else .raise e

omit [Ed25519] in
/-- The loop of `find_payload`: the first output with the expected payload and number, or the first
one with any payload if none is expected. -/
def findPayload (expectedPayloadHex : Option PyStr) (expectedVout : Option ℕ) :
    List (TxOut × ℕ) → Option (PyStr × ℕ) → Option (PyStr × ℕ)
  | [], firstValid => if expectedPayloadHex.isNone then firstValid else none
  | (output, index) :: rest, firstValid =>
    let number := output.number index
    if expectedVout.any (number ≠ ·) then
      findPayload expectedPayloadHex expectedVout rest firstValid
    else
      match Discovery.acceptedPayload output.scriptHex with
      | none => findPayload expectedPayloadHex expectedVout rest firstValid
      | some (payload, _) =>
        if expectedPayloadHex.all (payload = ·) then some (payload, number)
        else
          findPayload expectedPayloadHex expectedVout rest
            (firstValid.or (some (payload, number)))

structure BlockStatus where
  blockHash : PyStr
  blockHeight : Option ℤ
  blockTime : Option ℤ
  medianTime : Option ℤ
  blockConfirmations : Option ℤ
  inActiveChain : Bool

omit [Ed25519] in
def BlockStatus.of (blockHash : PyStr) (header : HeaderInfo) : BlockStatus where
  blockHash := blockHash
  blockHeight := header.height
  blockTime := header.time
  medianTime := header.mediantime
  blockConfirmations := header.confirmations
  inActiveChain := 0 ≤ header.confirmations.getD (-1)

def blockContext (blockHash : PyStr) : Verifying BlockStatus := do
  let header ← tx (.getblockheader blockHash)
  return .of blockHash header

def transactionContext (info : TxInfo) : Verifying (Option BlockStatus) :=
  match info.blockhash.filter (· ≠ []) with
  | some blockHash => do
    let context ← blockContext blockHash
    return some context
  | none => return none

end BitcoinRPC

namespace Service

inductive Verification
  | noPayload (txid : PyStr)
  | checked (payloadMatches : Bool) (confirmations : ℤ) (txid : PyStr) (vout : ℕ)
      (payloadHex expectedPayloadHex : PyStr) (context : Option BitcoinRPC.BlockStatus)
      (status : AnchorStatus)

omit [Ed25519] in
def verifiedStatus (payloadMatches : Bool) (confirmations : ℤ)
    (context : Option BitcoinRPC.BlockStatus) : AnchorStatus :=
  if payloadMatches ∧ 0 < confirmations ∧ context.any (·.inActiveChain) then .confirmed
  else if payloadMatches ∧ context.any (!·.inActiveChain) then .reorganised
  else if payloadMatches then .broadcast
  else .invalid

omit [Ed25519] in
/-- The transaction to verify: the one given, or that of the newest anchor. -/
def chosenTxid (anchors : List Anchor) : Option PyStr → Py PyStr
  | some txid => .ok txid
  | none =>
    match anchors.getLast? with
    | some anchor => .ok anchor.txid
    | none => raise .serviceError "no anchor found for batch"

def anchorFound (anchors : List Anchor) (batchId : PyStr) (p : Point) : Verifying Anchor :=
  match anchors.find? fun a => a.txid = p.1 ∧ a.vout = p.2 with
  | some existing => return existing
  | none => do
    let network ← node BitcoinRPC.network
    let anchoredAt ← node now
    return {
      txid := p.1, vout := p.2, batchId := batchId, network := network, status := .unverified
      anchoredAt := anchoredAt, blockHash := none, blockHeight := none }

def updatedAnchor (row : Anchor) (info : TxInfo) (payloadMatches : Bool)
    (context : Option BitcoinRPC.BlockStatus) : Anchor :=
  { row with
    status := verifiedStatus payloadMatches (info.confirmations.getD 0) context
    blockHash := info.blockhash
    blockHeight := context.bind (·.blockHeight) }

/-- Store the anchor of a transaction with the payload, after a look at its block. -/
def recordVerification (anchors : List Anchor) (batch : Batch) (txid : PyStr) (info : TxInfo)
    (payloadHex : PyStr) (foundVout : ℕ) : Verifying Verification := do
  let payloadMatches := decide (payloadHex = batch.payloadHex)
  let context ← BitcoinRPC.transactionContext info
  let row ← anchorFound anchors batch.batchId (txid, foundVout)
  let updated := updatedAnchor row info payloadMatches context
  let _ ← node (storage (.addAnchor updated))
  return .checked payloadMatches (info.confirmations.getD 0) txid foundVout payloadHex
    batch.payloadHex context updated.status

/-- `anchors` are the rows of the batch; its identifier is never empty. -/
def verifyBitcoinAnchor (batchId : PyStr) (txid : Option PyStr) : Verifying Verification := do
  let some batch ← node (storage (.batch batchId)) | node (serviceError "batch not found")
  let rows ← node (storage .anchors)
  let anchors := rows.filter (·.batchId = batchId)
  let txid ← .ofExcept (chosenTxid anchors txid)
  let rpcNetwork ← node BitcoinRPC.network
  node (check (rpcNetwork = batch.network) "Bitcoin RPC network does not match batch network")
  let existing := anchors.find? (·.txid = txid)
  let info ← BitcoinRPC.transaction txid (existing.bind (·.blockHash))
  match BitcoinRPC.findPayload (some batch.payloadHex) (existing.map (·.vout)) info.vout.zipIdx
    none with
  | none => return .noPayload txid
  | some (payloadHex, foundVout) =>
    recordVerification anchors batch txid info payloadHex foundVout

end Service

end HistoryAnchor

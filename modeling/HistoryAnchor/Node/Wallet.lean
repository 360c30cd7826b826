import HistoryAnchor.Effects.Expansion
import HistoryAnchor.Node.Service

/-! # Anchoring through a wallet

`broadcast_op_return` has Bitcoin Core's wallet build, fund and sign a transaction with
one commitment, and sends it after the last of its checks. Amounts are in satoshis: Core
reports multiples of one, too few for a float to confuse two of them. What has been sent
stays in a ledger beside the store.
-/

namespace HistoryAnchor

open Python Effects Prog

variable {α β : Type}

/-- A funded transaction with the fee that Bitcoin Core reports. -/
structure Funded where
  hex : PyStr
  fee : Option ℤ

structure Signed where
  hex : PyStr
  complete : Bool

/-- What the mempool's policy says about a transaction. -/
structure Acceptance where
  allowed : Bool
  rejectReason : Option PyStr

/-- The methods that `broadcast_op_return` calls. -/
inductive WalletCall : Type → Type
  | createrawtransaction (data : PyStr) : WalletCall PyStr
  | fundrawtransaction (raw : PyStr) : WalletCall Funded
  | signrawtransactionwithwallet (raw : PyStr) : WalletCall Signed
  | testmempoolaccept (raw : PyStr) : WalletCall (List Acceptance)
  | decoderawtransaction (raw : PyStr) : WalletCall (List TxOut)
  | sendrawtransaction (raw : PyStr) : WalletCall PyStr

/-- What Bitcoin Core reads in a raw transaction; the fee is that of its inputs and outputs. -/
structure RawTx where
  txid : PyStr
  vout : List TxOut
  fee : ℤ
  complete : Bool

/-- The raw transactions that the mempool would take, and those handed to the network. -/
structure Ledger where
  allowed : List PyStr
  sent : List PyStr

def Ledger.allow (l : Ledger) (raw : PyStr) : Ledger := { l with allowed := raw :: l.allowed }

def Ledger.send (l : Ledger) (raw : PyStr) : Ledger := { l with sent := raw :: l.sent }

namespace WalletCall

/-- Bitcoin Core reports what it reads, and signing changes neither the outputs nor the fee. Every
call may fail, and the mempool may refuse a transaction. -/
def Reports (decode : PyStr → Option RawTx) : {β : Type} → WalletCall β → Py β → Prop
  | _, fundrawtransaction _, x => ∀ funded, x = .ok funded →
      ∃ tx, decode funded.hex = some tx ∧ ∀ fee ∈ funded.fee, fee = tx.fee
  | _, signrawtransactionwithwallet raw, x => ∀ signed, x = .ok signed →
      ∃ tx, decode raw = some tx ∧ ∃ tx', decode signed.hex = some tx' ∧ tx'.vout = tx.vout ∧
        tx'.fee = tx.fee ∧ tx'.complete = signed.complete
  | _, decoderawtransaction raw, x => ∀ vout, x = .ok vout →
      ∃ tx, decode raw = some tx ∧ tx.vout = vout
  | _, sendrawtransaction raw, x => ∀ txid, x = .ok txid →
      ∃ tx, decode raw = some tx ∧ tx.txid = txid
  | _, _, _ => True

/-- What a call leaves in the ledger. When sending fails the transaction may be out all the same. -/
def Moves : {β : Type} → WalletCall β → Py β → Ledger → Ledger → Prop
  | _, testmempoolaccept raw, .ok (acceptance :: _), l, l' =>
      l' = if acceptance.allowed then l.allow raw else l
  | _, sendrawtransaction raw, .ok _, l, l' => l' = l.send raw
  | _, sendrawtransaction raw, .error _, l, l' => l' = l ∨ l' = l.send raw
  | _, _, _, l, l' => l' = l

end WalletCall

section Coordinator

variable [Ed25519]

inductive CoordinatorCall (β : Type) : Type
  | node (c : NodeCall β)
  | wallet (c : WalletCall β)

abbrev Coordinator := Prog CoordinatorCall Exc

def wallet (c : WalletCall β) : Coordinator β := .perform (.wallet c)

def coordinating (rpcAnswers : Answers) (decode : PyStr → Option RawTx) :
    Handler CoordinatorCall Exc (Store × Ledger) :=
  fun _ call t x t' =>
    match call with
    | .node c => environment rpcAnswers c t.1 x t'.1 ∧ t'.2 = t.2
    | .wallet c => c.Reports decode x ∧ t'.1 = t.1 ∧ c.Moves x t.2 t'.2

structure Broadcast where
  txid : PyStr
  vout : ℕ
  fee : ℤ
  rawTransaction : PyStr

def Broadcast.point (b : Broadcast) : Point := (b.txid, b.vout)

/-- `f"{amount:.8f}"`. -/
def btc (satoshis : ℤ) : PyStr :=
  (if satoshis < 0 then "-" else "") ++ decimal (satoshis.natAbs / 100000000) ++ "." ++
    (decimal (100000000 + satoshis.natAbs % 100000000)).tail

example : btc 100 = "0.00000100" ∧ btc (-250000000) = "-2.50000000" := by decide

def matchingVouts (payloadHex : PyStr) (vout : List TxOut) : List ℕ :=
  (vout.filter fun o => Bitcoin.extractPayloadFromScript o.scriptHex = some payloadHex).map
    (·.number 0)

namespace BitcoinRPC

def rpcError (text : PyStr) : Coordinator α := .raise ⟨.bitcoinRPCError, text⟩

def broadcastOpReturn (maxAnchorFee : ℤ) (payloadHex : PyStr) : Coordinator Broadcast := do
  let raw ← wallet (.createrawtransaction payloadHex)
  let funded ← wallet (.fundrawtransaction raw)
  let fee := funded.fee.getD 0
  if fee ≤ 0 ∨ maxAnchorFee < fee then
    rpcError ("anchor fee " ++ btc fee ++ " BTC is outside allowed range (max " ++
      btc maxAnchorFee ++ " BTC)")
  let signed ← wallet (.signrawtransactionwithwallet funded.hex)
  if !signed.complete then rpcError "wallet could not fully sign the anchor transaction"
  let acceptance ← wallet (.testmempoolaccept signed.hex)
  if !acceptance.head?.any Acceptance.allowed then
    let reason := match acceptance with
      | a :: _ => a.rejectReason.getD "unknown rejection"
      | [] => "no result"
    rpcError ("anchor transaction rejected by mempool policy: " ++ reason)
  let vout ← wallet (.decoderawtransaction signed.hex)
  match matchingVouts payloadHex vout with
  | [n] =>
    let txid ← wallet (.sendrawtransaction signed.hex)
    return ⟨txid, n, fee, signed.hex⟩
  | _ => rpcError "signed anchor transaction does not contain exactly one expected commitment"

end BitcoinRPC

/-- What carries out a call of the node: the wallet makes the broadcast, and every other call goes
where it went. -/
def carryOut (maxAnchorFee : ℤ) : ∀ ⦃β : Type⦄, NodeCall β → Coordinator β
  | _, .outside (.broadcastOpReturn payloadHex) => do
    let broadcast ← BitcoinRPC.broadcastOpReturn maxAnchorFee payloadHex
    return broadcast.point
  | _, .outside .time => .perform (.node (.outside .time))
  | _, .outside (.getPackage peer batchId) =>
    .perform (.node (.outside (.getPackage peer batchId)))
  | _, .storage c => .perform (.node (.storage c))
  | _, .rpc c => .perform (.node (.rpc c))

def coordinate (maxAnchorFee : ℤ) (p : Node α) : Coordinator α := p.expand (carryOut maxAnchorFee)

section Coordinate

variable {maxAnchorFee : ℤ}

theorem coordinate_bind (p : Node α) (f : α → Node β) :
    coordinate maxAnchorFee (p.bind f) =
      (coordinate maxAnchorFee p).bind fun a => coordinate maxAnchorFee (f a) :=
  expand_bind p f

theorem coordinate_storage (c : StorageCall β) :
    coordinate maxAnchorFee (storage c) = .perform (.node (.storage c)) :=
  expand_perform _

theorem coordinate_rpc (c : RpcCall β) :
    coordinate maxAnchorFee (rpc c) = .perform (.node (.rpc c)) :=
  expand_perform _

theorem coordinate_now : coordinate maxAnchorFee now = .perform (.node (.outside .time)) :=
  expand_perform _

theorem coordinate_broadcast (payloadHex : PyStr) :
    coordinate maxAnchorFee (.perform (.outside (.broadcastOpReturn payloadHex))) =
      (BitcoinRPC.broadcastOpReturn maxAnchorFee payloadHex).bind fun b => .ret b.point :=
  expand_perform _

theorem coordinate_ofExcept (x : Py α) :
    coordinate maxAnchorFee (.ofExcept x) = (.ofExcept x : Coordinator α) :=
  expand_ofExcept x

theorem coordinate_ret (a : α) : coordinate maxAnchorFee (.ret a) = .ret a := rfl

end Coordinate

/-- `direct_anchor_record`. -/
def Service.directAnchorRecord (recordId network : PyStr) (allowMainnet : Bool) :
    Node (Batch × Json × Anchor) := do
  let batch ← createDirectBatch recordId network
  let some package ← packageForBatch batch.batchId
    | serviceError "could not construct the direct-publication package"
  let anchor ← anchorBatch batch.batchId allowMainnet
  return (batch, package, anchor)

end Coordinator

end HistoryAnchor

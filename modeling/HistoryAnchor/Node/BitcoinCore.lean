import HistoryAnchor.Node.Verification

/-! # Bitcoin Core

A node with an active chain, the blocks it knows besides, the transactions that wait
for a block and a wallet. It reads a hash by its value, whatever the case of the digits,
and answers about transactions and headers from what it has.
-/

namespace HistoryAnchor

open Python Effects Prog

def parseHash (text : PyStr) : Option Bytes :=
  (fromHex text).filter fun raw => text.length = 64 ∧ raw.length = 32

theorem parseHash_eq_some {text : PyStr} {raw : Bytes} :
    parseHash text = some raw ↔ IsDigest text raw := by
  simp only [parseHash, Option.filter_eq_some_iff, decide_eq_true_eq, IsDigest]
  tauto

def SameHash (s t : PyStr) : Prop := ∃ raw, IsDigest s raw ∧ IsDigest t raw

theorem sameHash_iff {s t : PyStr} : SameHash s t ↔ parseHash s ≠ none ∧ parseHash s = parseHash t := by
  simp only [SameHash, ← parseHash_eq_some]
  constructor
  · rintro ⟨raw, hs, ht⟩
    exact ⟨by rw [hs]; nofun, hs.trans ht.symm⟩
  · rintro ⟨hne, he⟩
    obtain ⟨raw, hs⟩ := Option.ne_none_iff_exists'.mp hne
    exact ⟨raw, hs, he ▸ hs⟩

instance (s t : PyStr) : Decidable (SameHash s t) := decidable_of_iff' _ sameHash_iff

theorem SameHash.symm {s t : PyStr} (h : SameHash s t) : SameHash t s := by
  obtain ⟨raw, hs, ht⟩ := h
  exact ⟨raw, ht, hs⟩

theorem SameHash.trans {s t u : PyStr} (h : SameHash s t) (h' : SameHash t u) : SameHash s u := by
  obtain ⟨raw, hs, ht⟩ := h
  obtain ⟨raw', ht', hu⟩ := h'
  obtain rfl : raw = raw' := Option.some.inj (ht.2.1.symm.trans ht'.2.1)
  exact ⟨raw, hs, hu⟩

def Tx.Named (t : Tx) (txid : PyStr) : Prop := ∃ id, t.txid = some id ∧ SameHash id txid

instance (t : Tx) (txid : PyStr) : Decidable (t.Named txid) :=
  decidable_of_iff (t.txid.any fun id => SameHash id txid) (by
    simp only [Option.any_eq_true, decide_eq_true_eq, Tx.Named])

/-- The chain has a transaction with the identifier and these outputs. -/
def Chain.Mines (c : Chain) (txid : PyStr) (outs : List TxOut) : Prop :=
  ∃ h x b, c.at? h = some (x, b) ∧ ∃ t ∈ b.tx, t.Named txid ∧ t.vout = outs

def TxOut.Pays (o : TxOut) (payloadHex : PyStr) : Prop :=
  ∃ script, Bitcoin.buildOpReturnScript payloadHex = .ok script ∧
    ∃ raw, fromHex script = some raw ∧ fromHex o.scriptHex = some raw

/-- The chain has a transaction with the identifier whose output with the number commits to the
payload. -/
def Chain.Publishes (c : Chain) (txid : PyStr) (vout : ℕ) (payloadHex : PyStr) : Prop :=
  ∃ outs, c.Mines txid outs ∧ ∃ out i, (out, i) ∈ outs.zipIdx ∧ out.number i = vout ∧
    out.Pays payloadHex

/-- A transaction of the wallet with what the wallet reports while no active block has it. -/
structure WalletTx where
  tx : Tx
  confirmations : ℤ
  blockhash : Option PyStr
  unconfirmed : confirmations ≤ 0

structure StaleBlock where
  hash : PyStr
  height : ℤ
  block : Block

structure BitcoinCore where
  chain : Chain
  stale : List StaleBlock
  mempool : List Tx
  wallet : List WalletTx
  txindex : Bool
  medianTime : PyStr → ℤ

namespace BitcoinCore

variable {n : BitcoinCore}

def depth (n : BitcoinCore) (height : ℕ) : ℤ := n.chain.blocks.length - height

def txIn (b : Block) (txid : PyStr) : Option Tx := b.tx.find? fun t => t.Named txid

/-- The active block with the transaction: its height, its hash and the transaction. -/
def mined (n : BitcoinCore) (txid : PyStr) : Option (ℕ × PyStr × Tx) :=
  n.chain.blocks.zipIdx.findSome? fun ((hash, b), height) =>
    (txIn b txid).map fun t => (height, hash, t)

def active (n : BitcoinCore) (blockHash : PyStr) : Option (ℕ × PyStr × Block) :=
  (n.chain.blocks.zipIdx.find? fun ((hash, _), _) => SameHash hash blockHash).map
    fun ((hash, b), height) => (height, hash, b)

def staleBlock (n : BitcoinCore) (blockHash : PyStr) : Option StaleBlock :=
  n.stale.find? fun b => SameHash b.hash blockHash

/-- `gettransaction`, for transactions of the wallet. -/
def gettransaction (n : BitcoinCore) (txid : PyStr) : Py TxInfo :=
  match n.wallet.find? fun w => w.tx.Named txid with
  | none => raise .bitcoinRPCError "gettransaction: Invalid or non-wallet transaction id"
  | some w =>
    match n.mined txid with
    | some (height, hash, t) => .ok ⟨t.vout, some (n.depth height), some hash⟩
    | none => .ok ⟨w.tx.vout, some w.confirmations, w.blockhash⟩

/-- `getrawtransaction` in one block. -/
def transactionInBlock (n : BitcoinCore) (txid blockHash : PyStr) : Py TxInfo :=
  match n.active blockHash, n.staleBlock blockHash with
  | some (height, hash, b), _ =>
    match txIn b txid with
    | some t => .ok ⟨t.vout, some (n.depth height), some hash⟩
    | none => raise .bitcoinRPCError "getrawtransaction: No such transaction found in the block"
  | none, some b =>
    match txIn b.block txid with
    | some t => .ok ⟨t.vout, some 0, some b.hash⟩
    | none => raise .bitcoinRPCError "getrawtransaction: No such transaction found in the block"
  | none, none => raise .bitcoinRPCError "getrawtransaction: Block hash not found"

/-- `getrawtransaction`: in the given block, or in the mempool and the index. -/
def getrawtransaction (n : BitcoinCore) (txid : PyStr) : Option PyStr → Py TxInfo
  | some blockHash => n.transactionInBlock txid blockHash
  | none =>
    match n.mempool.find? fun t => t.Named txid with
    | some t => .ok ⟨t.vout, none, none⟩
    | none =>
      match if n.txindex then n.mined txid else none with
      | some (height, hash, t) => .ok ⟨t.vout, some (n.depth height), some hash⟩
      | none => raise .bitcoinRPCError "getrawtransaction: No such mempool transaction"

/-- `getblockheader`: a block that is not active has -1 confirmations. -/
def getblockheader (n : BitcoinCore) (blockHash : PyStr) : Py HeaderInfo :=
  match n.active blockHash, n.staleBlock blockHash with
  | some (height, hash, b), _ =>
    .ok ⟨some height, some b.blockTime, some (n.medianTime hash), some (n.depth height)⟩
  | none, some b =>
    .ok ⟨some b.height, some b.block.blockTime, some (n.medianTime b.hash), some (-1)⟩
  | none, none => raise .bitcoinRPCError "getblockheader: Block not found"

def answer (n : BitcoinCore) {β : Type} : TxCall β → Py β
  | .gettransaction txid => n.gettransaction txid
  | .getrawtransaction txid blockHash => n.getrawtransaction txid blockHash
  | .getblockheader blockHash => n.getblockheader blockHash

def truthful (n : BitcoinCore) : TxAnswers := fun _ call x => x = n.answer call

def flaky (n : BitcoinCore) : TxAnswers := fun _ call x => x = n.answer call ∨ ∃ e, x = .error e

variable [Ed25519]

def environment (n : BitcoinCore) : Handler VerifyCall Exc Store := verifying n.chain.flaky n.flaky

def oracle (n : BitcoinCore) : Oracle VerifyCall Exc Store := fun _ call s =>
  match call with
  | .node c => n.chain.oracle c s
  | .tx c => (n.answer c, s)

theorem obeys_environment (n : BitcoinCore) : Obeys n.oracle n.environment := by
  intro β call s
  have hnode : Obeys n.chain.oracle (HistoryAnchor.environment n.chain.flaky) :=
    n.chain.obeys_oracle fun _ _ _ => Or.inl rfl
  cases call with
  | node c => exact hnode c s
  | tx c => exact ⟨Or.inl rfl, rfl⟩

end BitcoinCore

end HistoryAnchor

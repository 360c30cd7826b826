import HistoryAnchor.Node.Storage

/-! # The node and its environment

The service runs against its storage, a Bitcoin node, peers and a clock. A chain
is a list of blocks from height zero in which hashes, transactions and output
numbers are unique. The state of a run is the store: the environment is given by
what the Bitcoin node may answer, truthfully from one chain or not.
-/

namespace HistoryAnchor

open Python Effects Prog

structure TxOut where
  n : Option UInt32
  scriptHex : PyStr
  deriving DecidableEq

/-- `int(output.get("n", index))`. -/
def TxOut.number (o : TxOut) (index : ℕ) : ℕ := (o.n.map UInt32.toNat).getD index

structure Tx where
  txid : Option PyStr
  vout : List TxOut
  deriving DecidableEq

def Tx.numbers (t : Tx) : List ℕ := t.vout.zipIdx.map fun (o, i) => o.number i

structure Block where
  time : Option UInt32
  tx : List Tx
  deriving DecidableEq

/-- `int(block.get("time", 0) or 0)`. -/
def Block.blockTime (b : Block) : ℤ := ((b.time.map UInt32.toNat).getD 0 : ℕ)

/-- An active chain: its blocks from height zero, each with its hash. -/
structure Chain where
  network : PyStr
  blocks : List (PyStr × Block)
  hashes_nodup : (blocks.map Prod.fst).Nodup
  txids_nodup : ((blocks.flatMap fun b => b.2.tx).filterMap Tx.txid).Nodup
  numbers_nodup : ∀ b ∈ blocks, ∀ t ∈ b.2.tx, t.numbers.Nodup

namespace Chain

def tip (c : Chain) : ℤ := c.blocks.length - 1

def at? (c : Chain) (height : ℤ) : Option (PyStr × Block) :=
  if height < 0 then none else c.blocks[height.toNat]?

def hashAt (c : Chain) (height : ℤ) : Option PyStr := (c.at? height).map Prod.fst

def block? (c : Chain) (blockHash : PyStr) : Option Block := c.blocks.lookup blockHash

/-- Two chains with one hash at a height have the same blocks up to that height. -/
def Agree (c c' : Chain) : Prop :=
  ∀ height, c.hashAt height ≠ none → c.hashAt height = c'.hashAt height →
    ∀ h ≤ height, c.at? h = c'.at? h

theorem agree_iff {c c' : Chain} : c.Agree c' ↔ ∀ i < c.blocks.length,
    c.hashAt i = c'.hashAt i → ∀ j < i + 1, c.at? (j : ℕ) = c'.at? (j : ℕ) := by
  constructor
  · intro h i hi he j hj
    refine h i ?_ he j (by omega)
    simp [hashAt, at?, hi]
  · intro h height hne he j hj
    rcases lt_or_ge j 0 with hneg | hpos
    · simp only [at?, if_pos hneg]
    rcases lt_or_ge height 0 with hneg | hpos'
    · exact absurd hj (by omega)
    obtain ⟨i, rfl⟩ := Int.eq_ofNat_of_zero_le hpos'
    obtain ⟨k, rfl⟩ := Int.eq_ofNat_of_zero_le hpos
    refine h i ?_ he k (by omega)
    by_contra hi
    exact hne (by simp [hashAt, at?, not_lt.mp hi])

instance (c c' : Chain) : Decidable (c.Agree c') := decidable_of_iff' _ agree_iff

end Chain

/-- The methods of Bitcoin Core that the scanner uses. -/
inductive RpcCall : Type → Type
  | getblockchaininfo : RpcCall PyStr
  | getblockcount : RpcCall ℤ
  | getblockhash (height : ℤ) : RpcCall PyStr
  | getblock (blockHash : PyStr) : RpcCall Block

/-- What the node asks of its wallet, its peers and its clock. -/
inductive OutsideCall : Type → Type
  /-- Fund, sign and send a transaction with one commitment; the answer is its output. -/
  | broadcastOpReturn (payloadHex : PyStr) : OutsideCall Point
  /-- `GET /v1/packages/{batch_id}` at a peer. -/
  | getPackage (peer batchId : PyStr) : OutsideCall Json
  /-- `int(time.time())`. -/
  | time : OutsideCall ℤ

/-- The clock answers; wallet and peers answer anything or fail. -/
def OutsideCall.Answers : {β : Type} → OutsideCall β → Py β → Prop
  | _, time, x => ∃ t, x = .ok t
  | _, _, _ => True

/-- Nobody is served by a peer or pays for a transaction, and the clock stands still. -/
def OutsideCall.silent : {β : Type} → OutsideCall β → Py β
  | _, time => .ok 0
  | _, getPackage _ _ => raise .serviceError "peer is offline"
  | _, broadcastOpReturn _ => raise .bitcoinRPCError "insufficient funds"

theorem OutsideCall.answers_silent {β : Type} (c : OutsideCall β) : c.Answers c.silent := by
  cases c with
  | time => exact ⟨0, rfl⟩
  | getPackage peer batchId => exact trivial
  | broadcastOpReturn payloadHex => exact trivial

variable [Ed25519]

inductive NodeCall (β : Type) : Type
  | storage (c : StorageCall β)
  | rpc (c : RpcCall β)
  | outside (c : OutsideCall β)

abbrev Node := Prog NodeCall Exc

def Chain.answer (c : Chain) {β : Type} : RpcCall β → Py β
  | .getblockchaininfo => .ok c.network
  | .getblockcount => .ok c.tip
  | .getblockhash h =>
    match c.hashAt h with
    | some x => .ok x
    | none => raise .bitcoinRPCError "getblockhash: block height out of range"
  | .getblock x =>
    match c.block? x with
    | some b => .ok b
    | none => raise .bitcoinRPCError "getblock: block not found"

/-- The answers that Bitcoin Core may give in a state of the store. -/
abbrev Answers := Store → ∀ ⦃β : Type⦄, RpcCall β → Py β → Prop

/-- The store answers its calls, Bitcoin Core answers within `rpc`, and everybody else as he
likes. -/
def environment (rpc : Answers) : Handler NodeCall Exc Store :=
  fun _ call s x s' =>
    match call with
    | .storage c => (x, s') = s.run c
    | .rpc c => rpc s c x ∧ s' = s
    | .outside c => c.Answers x ∧ s' = s

def Chain.truthful (c : Chain) : Answers := fun _ _ call x => x = c.answer call

def Chain.flaky (c : Chain) : Answers := fun _ _ call x => x = c.answer call ∨ ∃ e, x = .error e

def respond (answer : Store → ∀ ⦃β : Type⦄, RpcCall β → Py β) : Oracle NodeCall Exc Store :=
  fun _ call s =>
    match call with
    | .storage c => s.run c
    | .rpc c => (answer s c, s)
    | .outside c => (c.silent, s)

theorem obeys_respond {answer : Store → ∀ ⦃β : Type⦄, RpcCall β → Py β} {rpc : Answers}
    (h : ∀ s ⦃β : Type⦄ (c : RpcCall β), rpc s c (answer s c)) :
    Obeys (respond answer) (environment rpc) := by
  intro β call s
  cases call with
  | storage c => exact rfl
  | rpc c => exact ⟨h s c, rfl⟩
  | outside c => exact ⟨c.answers_silent, rfl⟩

def Chain.oracle (c : Chain) : Oracle NodeCall Exc Store := respond fun _ _ call => c.answer call

theorem Chain.obeys_oracle {c : Chain} {rpc : Answers}
    (h : ∀ s ⦃β : Type⦄ (call : RpcCall β), rpc s call (c.answer call)) :
    Obeys c.oracle (environment rpc) :=
  obeys_respond h

variable {α β : Type}

def storage (c : StorageCall β) : Node β := .perform (.storage c)

def rpc (c : RpcCall β) : Node β := .perform (.rpc c)

def now : Node ℤ := .perform (.outside .time)

namespace BitcoinRPC

def network : Node PyStr := do
  let chain ← rpc .getblockchaininfo
  return if chain = "main" then "mainnet" else chain

def blockCount : Node ℤ := rpc .getblockcount

def blockHash (height : ℤ) : Node PyStr :=
  if height < 0 then .raise ⟨.bitcoinRPCError, "block height cannot be negative"⟩
  else rpc (.getblockhash height)

def block (hash : PyStr) : Node Block := rpc (.getblock hash)

end BitcoinRPC

end HistoryAnchor

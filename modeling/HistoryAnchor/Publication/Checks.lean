import HistoryAnchor.Node.Verification
import HistoryAnchor.Publication.Soundness

/-! # What a verification stores

The verification of an anchor writes one row at most. It keeps the batch, and where it
confirms, Bitcoin Core has described the transaction with an output that carries the
payload of the batch, in a block that it takes to be active.
-/

namespace HistoryAnchor

open Python Effects Prog Discovery Tables

/-- A confirmed transaction is in the block of the chain that it names, with the same outputs. -/
def TxInfo.Of (info : TxInfo) (c : Chain) (txid : PyStr) : Prop :=
  ∀ x, info.blockhash = some x → 0 < info.confirmations.getD 0 →
    ∃ h b, c.at? h = some (x, b) ∧ ∃ t ∈ b.tx, t.txid = some txid ∧ t.vout = info.vout

/-- A header is active exactly if its block is in the chain, at the height that it names. -/
def HeaderInfo.Of (header : HeaderInfo) (c : Chain) (blockHash : PyStr) : Prop :=
  (0 ≤ header.confirmations.getD (-1) ↔ ∃ h, c.hashAt h = some blockHash) ∧
    ∀ h, c.hashAt h = some blockHash → header.height = some h

/-- What Bitcoin Core may tell about transactions and headers while the chain is active; it may know
others, and any call may fail. -/
def Chain.tells (c : Chain) : TxAnswers := fun _ call x =>
  match call with
  | .gettransaction txid => ∀ info, x = .ok info → info.Of c txid
  | .getrawtransaction txid _ => ∀ info, x = .ok info → info.Of c txid
  | .getblockheader blockHash => ∀ header, x = .ok header → header.Of c blockHash

def TxAnswers.Describe (txAnswers : TxAnswers) (txid : PyStr) (info : TxInfo) : Prop :=
  txAnswers (.gettransaction txid) (.ok info) ∨
    ∃ blockHash, txAnswers (.getrawtransaction txid blockHash) (.ok info)

theorem Chain.tells_describe {c : Chain} {txid : PyStr} {info : TxInfo}
    (h : TxAnswers.Describe c.tells txid info) : info.Of c txid := by
  rcases h with h | ⟨blockHash, h⟩
  · exact h info rfl
  · exact h info rfl

def TxInfo.Carries (info : TxInfo) (payloadHex : PyStr) (vout : ℕ) : Prop :=
  ∃ out i payload, (out, i) ∈ info.vout.zipIdx ∧
    acceptedPayload out.scriptHex = some (payloadHex, payload) ∧ vout = out.number i

theorem BitcoinRPC.findPayload_some {expected payloadHex : PyStr} {vout : Option ℕ}
    {outs : List (TxOut × ℕ)} {firstValid : Option (PyStr × ℕ)} {n : ℕ}
    (h : findPayload (some expected) vout outs firstValid = some (payloadHex, n)) :
    payloadHex = expected ∧ ∃ out i payload, (out, i) ∈ outs ∧
      acceptedPayload out.scriptHex = some (payloadHex, payload) ∧ n = out.number i := by
  induction outs generalizing firstValid with
  | nil => cases h
  | cons x rest ih =>
    obtain ⟨output, index⟩ := x
    have hrest : ∀ {fv}, findPayload (some expected) vout rest fv = some (payloadHex, n) →
        payloadHex = expected ∧ ∃ out i payload, (out, i) ∈ (output, index) :: rest ∧
          acceptedPayload out.scriptHex = some (payloadHex, payload) ∧ n = out.number i := by
      intro fv hfv
      obtain ⟨he, out, i, payload, hm, hacc⟩ := ih hfv
      exact ⟨he, out, i, payload, List.mem_cons_of_mem _ hm, hacc⟩
    rw [findPayload] at h
    split_ifs at h with hskip
    · exact hrest h
    · cases hacc : acceptedPayload output.scriptHex with
      | none =>
        rw [hacc] at h
        exact hrest h
      | some found =>
        obtain ⟨payload, decoded⟩ := found
        rw [hacc] at h
        dsimp only at h
        split_ifs at h with hmatch
        · obtain ⟨rfl, rfl⟩ := Prod.mk.inj (Option.some.inj h)
          have he : payload = expected := of_decide_eq_true hmatch
          exact ⟨he, output, index, decoded, List.mem_cons_self, hacc, rfl⟩
        · exact hrest h

theorem Service.verifiedStatus_confirmed {payloadMatches : Bool} {confirmations : ℤ}
    {context : Option BitcoinRPC.BlockStatus}
    (h : verifiedStatus payloadMatches confirmations context = .confirmed) :
    0 < confirmations ∧ ∃ status, context = some status ∧ status.inActiveChain = true := by
  unfold verifiedStatus at h
  split_ifs at h with hc
  exact ⟨hc.2.1, by simpa only [Option.any_eq_true] using hc.2.2⟩

section Spec

variable [Ed25519] {α β : Type} {rpcAnswers : Answers} {txAnswers : TxAnswers} {s : Store}
  {c : Chain}

theorem node_ensures {p : Node α} {R G : Store → Store → Prop} {Q : Py α → Store → Prop} :
    (node p).Ensures (verifying rpcAnswers txAnswers) R G Q s ↔
      p.Ensures (environment rpcAnswers) R G Q s :=
  ensures_embed fun _ _ _ _ _ => Iff.rfl

theorem tx_alone {call : TxCall β} {Q : Py β → Store → Prop} :
    (BitcoinRPC.tx call).Alone (verifying rpcAnswers txAnswers) (fun _ => True) Q s ↔
      ∀ x, txAnswers call x → Q x s := by
  simp only [BitcoinRPC.tx, ensures_perform, forall_eq', true_and, verifying]
  constructor
  · intro h x hx
    exact h x s ⟨hx, rfl⟩
  · rintro h x _ ⟨hx, rfl⟩
    exact h x hx

theorem network_alone {Q : Py PyStr → Store → Prop} (hrpc : rpcAnswers.Within c)
    (failed : ∀ e, Q (.error e) s) (done : Q (.ok c.networkName) s) :
    BitcoinRPC.network.Alone (environment rpcAnswers) (fun _ => True) Q s := by
  simp only [BitcoinRPC.network, bind_eq, ensures_bind, rpc_ensures, forall_eq', true_and]
  intro x hx
  rcases hrpc _ _ _ hx with rfl | ⟨e, rfl⟩
  · exact done
  · exact failed e

theorem transaction_alone {txid : PyStr} {blockHash : Option PyStr} {Q : Py TxInfo → Store → Prop}
    (failed : ∀ e, Q (.error e) s)
    (done : ∀ info, txAnswers.Describe txid info → Q (.ok info) s) :
    (BitcoinRPC.transaction txid blockHash).Alone (verifying rpcAnswers txAnswers) (fun _ => True)
      Q s := by
  simp only [BitcoinRPC.transaction, bind_eq, ensures_bind, ensures_outcome]
  apply tx_alone.mpr
  rintro (e | info) hx
  · dsimp only [thenOk_ok]
    split_ifs
    · apply tx_alone.mpr
      rintro (e' | info) hx'
      · exact failed e'
      · exact done info (Or.inr ⟨_, hx'⟩)
    · exact failed e
  · exact done info (Or.inl hx)

namespace Service

/-- A row that the verification of a batch's anchor may store. -/
structure Verified (c : Chain) (txAnswers : TxAnswers) (s : Store) (batch : Batch) (txid : PyStr)
    (a : Anchor) : Prop where
  batchId : a.batchId = batch.batchId
  transaction : a.txid = txid
  network : a.network = c.networkName ∨
    ∃ old ∈ s.anchors, old.batchId = batch.batchId ∧ old.network = a.network
  confirmed : a.status = .confirmed → ∃ info x header, txAnswers.Describe txid info ∧
    info.Carries batch.payloadHex a.vout ∧ info.blockhash = some x ∧ a.blockHash = some x ∧
    0 < info.confirmations.getD 0 ∧ txAnswers (.getblockheader x) (.ok header) ∧
    0 ≤ header.confirmations.getD (-1)

end Service

end Spec

end HistoryAnchor

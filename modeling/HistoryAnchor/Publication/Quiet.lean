import HistoryAnchor.Node.Wallet
import HistoryAnchor.Publication.Soundness
import HistoryAnchor.Resolution.Peers

/-! # Operations that send nothing

Of the operations of the service only those that anchor a batch ask the wallet for a
broadcast. Every other one leaves the ledger alone, whatever it is answered.
-/

namespace HistoryAnchor

open Python Effects Prog

variable [Ed25519] {α β : Type}

def NodeCall.Broadcasts : {β : Type} → NodeCall β → Prop
  | _, .outside (.broadcastOpReturn _) => True
  | _, _ => False

def Quiet (p : Node α) : Prop := p.Calls fun _ c => ¬ c.Broadcasts

namespace Quiet

theorem of_storage {p : Node α} (h : p.Calls fun _ c => c.IsStorage) : Quiet p :=
  h.mono fun _ c hc => by
    cases c with
    | storage c => exact not_false
    | rpc c => exact not_false
    | outside c => exact hc.elim

theorem storage (c : StorageCall β) : Quiet (storage c) := calls_perform not_false

theorem rpc (c : RpcCall β) : Quiet (rpc c) := calls_perform not_false

theorem now : Quiet now := calls_perform not_false

theorem check (c : Prop) [Decidable c] (text : PyStr) : Quiet (Service.check c text) :=
  calls_ofExcept _

theorem network : Quiet BitcoinRPC.network := (rpc _).bind fun _ => calls_ret _

theorem blockHash (height : ℤ) : Quiet (BitcoinRPC.blockHash height) := by
  unfold BitcoinRPC.blockHash
  split_ifs
  · exact calls_raise _
  · exact rpc _

theorem outcome {p : Node α} (h : Quiet p) : Quiet p.outcome := by
  induction p with
  | ret a => exact trivial
  | raise e => exact trivial
  | call c k ih => exact ⟨h.1, fun x => ih x (h.2 x)⟩

theorem ancestorBelow (n : ℕ) : Quiet (Discovery.ancestorBelow n) := by
  induction n with
  | zero => exact calls_ret _
  | succ candidate ih =>
    refine (storage _).bind fun stored => ?_
    cases stored with
    | none => exact ih
    | some row =>
      refine (blockHash _).outcome.bind fun answer => ?_
      cases answer with
      | error e => exact ih
      | ok activeHash =>
        dsimp only
        split_ifs
        · exact calls_ret _
        · exact ih

theorem rewindTo (startHeight height : ℤ) : Quiet (Discovery.rewindTo startHeight height) :=
  (ancestorBelow _).bind fun _ => (storage _).bind fun _ => calls_ret _

theorem entry (startHeight tip : ℤ) : Quiet (Discovery.entry startHeight tip) := by
  refine (storage _).bind fun storedTip => ?_
  cases storedTip with
  | none => exact calls_ret _
  | some row =>
    dsimp only
    split_ifs
    · refine (blockHash _).outcome.bind fun answer => ?_
      cases answer with
      | error e => exact rewindTo _ _
      | ok activeHash =>
        dsimp only
        split_ifs
        · exact calls_ret _
        · exact rewindTo _ _
    · exact rewindTo _ _

theorem recordCommitment (b : Discovery.BlockContext) (p : Point) (payloadHex : PyStr)
    (payload : Bitcoin.AnchorPayload) :
    Quiet (Discovery.recordCommitment b p payloadHex payload) := by
  refine now.bind fun discoveredAt => ?_
  refine (storage _).bind fun _ => (storage _).bind fun batch => ?_
  split_ifs
  · exact (of_storage (Service.registerScannedAnchor_calls _ _)).bind fun _ => calls_ret _
  · exact calls_ret _

theorem scanBlock (network : PyStr) (found : ℕ) (height : ℤ) :
    Quiet (Discovery.scanBlock network found height) := by
  refine (blockHash _).bind fun blockHash => (rpc _).bind fun block => ?_
  refine Calls.bind (calls_foldlM (fun found tx => ?_) _ _) fun found => ?_
  · unfold Discovery.scanTransaction
    split
    · exact calls_ret _
    · refine calls_foldlM (fun found output => ?_) _ _
      unfold Discovery.scanOutput
      split
      · exact calls_ret _
      · exact (recordCommitment _ _ _ _).bind fun _ => calls_ret _
  · exact (storage _).bind fun _ => calls_ret _

theorem scanBitcoin (startHeight maxBlocks : ℤ) :
    Quiet (Discovery.scanBitcoin startHeight maxBlocks) := by
  refine network.bind fun network => (rpc _).bind fun tip => ?_
  refine (entry _ _).bind fun next => ?_
  obtain ⟨rewindHeight, nextHeight⟩ := next
  dsimp only
  split_ifs
  · exact calls_ret _
  · exact Calls.bind (calls_foldlM (fun found height => scanBlock _ found height) _ _)
      fun _ => calls_ret _

theorem fetchPackage (batchId : PyStr) (peers : List PyStr) (errors : List Discovery.PeerError) :
    Quiet (Discovery.fetchPackage batchId peers errors) := by
  induction peers generalizing errors with
  | nil => exact calls_ret _
  | cons peer peers ih =>
    unfold Discovery.fetchPackage
    refine Calls.bind (outcome ?_) fun attempt => ?_
    · refine Calls.bind ?_ fun candidate => (check _ _).bind fun _ => calls_ret _
      refine (calls_perform not_false).bind fun value => (check _ _).bind fun _ => ?_
      exact (calls_ofExcept _).bind fun _ => calls_ret _
    · cases attempt with
      | ok package => exact calls_ret _
      | error e => exact ih _

theorem resolveCommitments (peers : List PyStr) (limit : ℤ) :
    Quiet (Discovery.resolveCommitments peers limit) := by
  refine (storage _).bind fun unresolved => calls_foldlM (fun result c => ?_) _ _
  refine (fetchPackage _ _ _).bind fun x => ?_
  obtain ⟨package, errors⟩ := x
  cases package with
  | none => exact calls_ret _
  | some package =>
    refine (of_storage (Service.importPackage_calls package)).bind fun _ => ?_
    refine (of_storage (Service.registerScannedAnchor_calls _ _)).bind fun _ => ?_
    exact (storage _).bind fun _ => calls_ret _

theorem importAnchorReference (anchor : Json) : Quiet (Service.importAnchorReference anchor) := by
  refine (calls_ofExcept _).bind fun _ => (storage _).bind fun batch => ?_
  cases batch with
  | none => exact calls_raise _
  | some batch =>
    refine (check _ _).bind fun _ => (storage _).bind fun existing => (check _ _).bind fun _ => ?_
    exact (storage _).bind fun _ => calls_ret _

theorem countAccepted {f : Json → Node Service.Status} (hf : ∀ v, Quiet (f v))
    (values : List Json) : Quiet (Service.countAccepted f values) :=
  calls_foldlM (fun _ v => (hf v).bind fun _ => calls_ret _) _ _

theorem importSnapshot (snapshot : Json) : Quiet (Service.importSnapshot snapshot) := by
  refine (calls_ofExcept _).bind fun _ => ?_
  refine (of_storage (Service.importPending_calls _ _ _ _)).bind fun _ => ?_
  refine (countAccepted (fun v => of_storage (Service.importBatch_calls v)) _).bind fun _ => ?_
  exact (countAccepted importAnchorReference _).bind fun _ => calls_ret _

theorem createBatch (network : PyStr) (limit maxPackageBytes : ℤ) :
    Quiet (Service.createBatch network limit maxPackageBytes) := by
  refine (storage _).bind fun candidates => (check _ _).bind fun _ => ?_
  refine (calls_ofExcept _).bind fun records => now.bind fun createdAt => ?_
  exact (calls_ofExcept _).bind fun batch => (storage _).bind fun _ => calls_ret _

theorem createDirectBatch (recordId network : PyStr) :
    Quiet (Service.createDirectBatch recordId network) := by
  refine (storage _).bind fun record => (check _ _).bind fun _ => now.bind fun createdAt => ?_
  exact (calls_ofExcept _).bind fun batch => (storage _).bind fun _ => calls_ret _

theorem recordsByIds (ids : List PyStr) : Quiet (Service.recordsByIds ids) := by
  induction ids with
  | nil => exact calls_ret _
  | cons recordId rest ih =>
    exact (storage _).bind fun _ => ih.bind fun _ => calls_ret _

theorem packageForBatch (batchId : PyStr) : Quiet (Service.packageForBatch batchId) := by
  refine (storage _).bind fun batch => ?_
  cases batch with
  | none => exact calls_ret _
  | some batch =>
    refine (recordsByIds _).bind fun records => ?_
    split_ifs
    · exact (calls_ofExcept _).bind fun _ => calls_ret _
    · exact calls_raise _

theorem operation {op : Operation} (hop : ∀ batchId allowMainnet,
    op ≠ .anchorBatch batchId allowMainnet) : Quiet op.run := by
  have hunit : ∀ {α : Type} {p : Node α}, Quiet p → Quiet (p.bind fun _ => .ret ()) := fun h =>
    h.bind fun _ => calls_ret _
  cases op with
  | submitRecord record requireLocalTarget localPolicy =>
    exact hunit (Service.submitRecord_calls_of (fun _ => not_false) (fun _ => not_false) _ _)
  | importBatch batch => exact hunit (of_storage (Service.importBatch_calls batch))
  | importPackage package => exact hunit (of_storage (Service.importPackage_calls package))
  | importSnapshot snapshot => exact hunit (importSnapshot snapshot)
  | importAnchorReference anchor => exact hunit (importAnchorReference anchor)
  | createBatch => exact hunit (createBatch _ _ _)
  | createDirectBatch => exact hunit (createDirectBatch _ _)
  | anchorBatch batchId allowMainnet => exact absurd rfl (hop batchId allowMainnet)
  | scanBitcoin => exact hunit (scanBitcoin _ _)
  | resolveCommitments => exact hunit (resolveCommitments _ _)

end Quiet

end HistoryAnchor

import HistoryAnchor.Node.BitcoinCore
import HistoryAnchor.Publication.Checks
import HistoryAnchor.Publication.References

/-! # Bundles against Bitcoin

The verification of a bundle takes transactions, output numbers and block hashes from
whoever made it. A verdict of `verified` rests on Bitcoin Core alone: it needs the
network, an output with the payload and a positive number of confirmations.
-/

namespace HistoryAnchor

open Python Effects Prog Discovery

section Program

variable [Ed25519]

def BitcoinRPC.contextAt (blockHash : Option PyStr) : Verifying (Option BlockStatus) :=
  match blockHash with
  | some blockHash => do
    let context ← blockContext blockHash
    return some context
  | none => return none

namespace Service

omit [Ed25519] in
/-- What was found out about an anchor whose payload was found. -/
structure CheckedAnchor where
  txid : PyStr
  vout : ℕ
  verified : Bool
  payloadMatches : Bool
  confirmations : ℤ
  context : Option BitcoinRPC.BlockStatus
  expectedPayloadHex : PyStr
  payloadHex : PyStr

omit [Ed25519] in
/-- An entry of `anchor_results`. -/
inductive AnchorResult
  | failed (reason : PyStr)
  | notFound (txid : PyStr)
  | checked (anchor : CheckedAnchor)

namespace AnchorResult

omit [Ed25519] in
def payloadMatches : AnchorResult → Bool
  | checked anchor => anchor.payloadMatches
  | _ => false

omit [Ed25519] in
def verified : AnchorResult → Bool
  | checked anchor => anchor.verified
  | _ => false

end AnchorResult

structure BitcoinVerdict where
  structural : BundleVerdict
  bitcoinNetwork : PyStr
  anchorResults : List AnchorResult
  anyBitcoinPayloadMatch : Bool
  anyBitcoinAnchorVerified : Bool

omit [Ed25519] in
def namedBlock (anchor : Json) : Option PyStr :=
  match anchor.get "block_hash" with
  | some (.str s) => some s
  | _ => none

omit [Ed25519] in
def namedVout (anchor : Json) : Option ℕ :=
  match anchor.get "vout" with
  | some (.int n) => some n.toNat
  | _ => none

/-- Look for the payload at the anchor's output and for the block of its transaction. -/
def checkAnchor (batch anchor : Json) (txid : PyStr) : Verifying AnchorResult := do
  let info ← BitcoinRPC.transaction txid (namedBlock anchor)
  match BitcoinRPC.findPayload (some (batch.text "payload_hex")) (namedVout anchor)
    info.vout.zipIdx none with
  | none => return .notFound txid
  | some (payloadHex, foundVout) =>
    let blockHash := (info.blockhash.filter (· ≠ [])).or ((namedBlock anchor).filter (· ≠ []))
    let context ← BitcoinRPC.contextAt blockHash
    let confirmations := info.confirmations.getD 0
    let payloadMatches := decide (payloadHex = batch.text "payload_hex")
    let inActiveChain := context.any (·.inActiveChain)
    return .checked {
      txid := txid
      vout := foundVout
      verified := payloadMatches && decide (0 < confirmations) && inActiveChain
      payloadMatches := payloadMatches
      confirmations := confirmations
      context := context
      expectedPayloadHex := batch.text "payload_hex"
      payloadHex := payloadHex }

def verifyAnchor (batch anchor : Json) : Verifying AnchorResult :=
  match anchor.get "txid" with
  | some (.str (c :: txid)) => checkAnchor batch anchor (c :: txid)
  | _ => return .failed "anchor txid is missing"

/-- The results of the anchors, up to the first that raises. -/
def verifyAnchors (batch : Json) : List Json → List AnchorResult → Verifying (List AnchorResult)
  | [], results => return results
  | anchor :: rest, results => do
    match ← (verifyAnchor batch anchor).outcome with
    | .ok result => verifyAnchors batch rest (results ++ [result])
    | .error e => return results ++ [.failed e.text]

def checkProofBatch (batch : Json) : Verifying Unit := do
  match batch with
  | .obj _ =>
    .ofExcept (Batches.validateBatch batch)
    let network ← node BitcoinRPC.network
    node (check (network = batch.text "network") "Bitcoin RPC network does not match proof batch")
  | _ => node (serviceError "proof batch is required")

def verifyProofAnchors (results : List AnchorResult) (proof : Json) :
    Verifying (List AnchorResult) := do
  let batch := proof.getD "batch" .null
  match ← (checkProofBatch batch).outcome with
  | .ok () => verifyAnchors batch (proof.items "anchors") results
  | .error e => return results ++ [.failed e.text]

def verifyProofBundleAgainstBitcoin (bundle : Json) : Verifying BitcoinVerdict := do
  .ofExcept (ProofBundles.validateProofBundleShape bundle)
  let structural ← .ofExcept (verifyProofBundle bundle)
  let anchorResults ← (bundle.items "proofs").foldlM verifyProofAnchors []
  let network ← node BitcoinRPC.network
  return {
    structural := structural
    bitcoinNetwork := network
    anchorResults := anchorResults
    anyBitcoinPayloadMatch := anchorResults.any AnchorResult.payloadMatches
    anyBitcoinAnchorVerified := anchorResults.any AnchorResult.verified }

end Service

end Program

section Node

variable {n : BitcoinCore} {txid : PyStr}

theorem Chain.at?_of_mem_zipIdx {c : Chain} {x : PyStr} {b : Block} {h : ℕ}
    (hm : ((x, b), h) ∈ c.blocks.zipIdx) : c.at? h = some (x, b) := by
  rw [List.mem_zipIdx_iff_getElem?] at hm
  rw [Chain.at?, if_neg (by omega), Int.toNat_natCast]
  exact hm

theorem BitcoinCore.txIn_some {b : Block} {t : Tx} (h : txIn b txid = some t) :
    t ∈ b.tx ∧ t.Named txid := by
  unfold txIn at h
  exact ⟨List.mem_of_find?_eq_some h, by simpa using List.find?_some h⟩

theorem BitcoinCore.mined_some {h : ℕ} {x : PyStr} {t : Tx} (hm : n.mined txid = some (h, x, t)) :
    ∃ b, n.chain.at? h = some (x, b) ∧ t ∈ b.tx ∧ t.Named txid := by
  obtain ⟨⟨⟨x', b⟩, h'⟩, hmem, hsome⟩ := List.exists_of_findSome?_eq_some hm
  obtain ⟨t', ht, he⟩ := Option.map_eq_some_iff.mp hsome
  obtain ⟨rfl, rfl, rfl⟩ : h' = h ∧ x' = x ∧ t' = t := by simpa using he
  exact ⟨b, Chain.at?_of_mem_zipIdx hmem, txIn_some ht⟩

theorem BitcoinCore.active_some {h : ℕ} {x y : PyStr} {b : Block}
    (hm : n.active y = some (h, x, b)) : n.chain.at? h = some (x, b) ∧ SameHash x y := by
  obtain ⟨⟨⟨x', b'⟩, h'⟩, hfind, he⟩ := Option.map_eq_some_iff.mp hm
  obtain ⟨rfl, rfl, rfl⟩ : h' = h ∧ x' = x ∧ b' = b := by simpa using he
  have hsame := List.find?_some hfind
  exact ⟨Chain.at?_of_mem_zipIdx (List.mem_of_find?_eq_some hfind), of_decide_eq_true hsame⟩

theorem BitcoinCore.mines_of_confirmed {info : TxInfo}
    (h : TxAnswers.Describe n.flaky txid info) (hc : 0 < info.confirmations.getD 0) :
    n.chain.Mines txid info.vout := by
  have hmined : ∀ {h x t}, n.mined txid = some (h, x, t) → n.chain.Mines txid t.vout := by
    intro h x t hm
    obtain ⟨b, hat, ht, hnamed⟩ := mined_some hm
    exact ⟨h, x, b, hat, t, ht, hnamed, rfl⟩
  rcases h with (h | ⟨e, h⟩) | ⟨blockHash, h | ⟨e, h⟩⟩
  · replace h : Except.ok info = n.gettransaction txid := h
    unfold gettransaction at h
    split at h
    · cases h
    · rename_i w _
      split at h
      · rename_i hm
        obtain rfl := Except.ok.inj h
        exact hmined hm
      · obtain rfl := Except.ok.inj h
        exact absurd w.unconfirmed (not_le.mpr hc)
  · cases h
  · replace h : Except.ok info = n.getrawtransaction txid blockHash := h
    cases blockHash with
    | some y =>
      rw [getrawtransaction, transactionInBlock] at h
      split at h
      · rename_i hactive
        split at h
        · rename_i ht
          obtain rfl := Except.ok.inj h
          obtain ⟨hm, hnamed⟩ := txIn_some ht
          exact ⟨_, _, _, (active_some hactive).1, _, hm, hnamed, rfl⟩
        · cases h
      · split at h
        · obtain rfl := Except.ok.inj h
          exact absurd hc (lt_irrefl _)
        · cases h
      · cases h
    | none =>
      rw [getrawtransaction] at h
      split at h
      · obtain rfl := Except.ok.inj h
        exact absurd hc (lt_irrefl _)
      · split at h
        · rename_i hm
          obtain rfl := Except.ok.inj h
          split_ifs at hm
          exact hmined hm
        · cases h
  · cases h

end Node

theorem TxOut.pays_of_accepted {o : TxOut} {payloadHex : PyStr} {payload : Bitcoin.AnchorPayload}
    (h : acceptedPayload o.scriptHex = some (payloadHex, payload)) : o.Pays payloadHex := by
  obtain ⟨hextract, -, -⟩ := acceptedPayload_some h
  unfold Bitcoin.extractPayloadFromScript at hextract
  split at hextract
  · rename_i op size rest hraw
    split_ifs at hextract with hop
    obtain ⟨rfl, hsize, hlen⟩ := hop
    obtain rfl := Option.some.inj hextract
    have hof : UInt8.ofNat rest.length = size := by
      rw [hlen]
      exact UInt8.ofNat_toNat
    refine ⟨hex (0x6A :: size :: rest), ?_, 0x6A :: size :: rest, fromHex_hex _, hraw⟩
    rw [Bitcoin.buildOpReturnScript, fromHex_hex]
    simp only [bind_ok, require_ok, exists_unit, hof]
    exact ⟨hlen ▸ hsize, rfl⟩
  · cases hextract

section Soundness

variable [Ed25519] {n : BitcoinCore} {s : Store} {batch anchor : Json}

namespace Service

/-- A verified anchor is in the chain of the batch's network, with the batch's payload. -/
def CheckedAnchor.Sound (n : BitcoinCore) (batch : Json) (a : CheckedAnchor) : Prop :=
  a.verified = true → n.chain.networkName = batch.text "network" ∧
    n.chain.Publishes a.txid a.vout (batch.text "payload_hex")

/-- Every result that is verified is sound for a proof of the list. -/
def SoundResults (n : BitcoinCore) (proofs : List Json) (results : List AnchorResult) : Prop :=
  ∀ a, .checked a ∈ results → ∃ proof ∈ proofs, a.Sound n (proof.getD "batch" .null)

omit [Ed25519] in
theorem SoundResults.append {proofs : List Json} {results : List AnchorResult} {r : AnchorResult}
    (h : SoundResults n proofs results)
    (hr : ∀ a, r = .checked a → ∃ proof ∈ proofs, a.Sound n (proof.getD "batch" .null)) :
    SoundResults n proofs (results ++ [r]) := by
  intro a ha
  rcases List.mem_append.mp ha with ha | ha
  · exact h a ha
  · exact hr a (List.mem_singleton.mp ha).symm

theorem contextAt_alone {blockHash : Option PyStr} {rpcAnswers : Answers} {txAnswers : TxAnswers}
    {Q : Py (Option BitcoinRPC.BlockStatus) → Store → Prop} (done : ∀ r, Q r s) :
    (BitcoinRPC.contextAt blockHash).Alone (verifying rpcAnswers txAnswers) (fun _ => True) Q s := by
  unfold BitcoinRPC.contextAt
  cases blockHash with
  | none => exact done _
  | some x =>
    simp only [BitcoinRPC.blockContext, bind_eq, pure_eq, Alone, ensures_bind]
    apply tx_alone.mpr
    rintro (e | header) -
    · exact done _
    · exact done _

theorem checkAnchor_alone {txid : PyStr} {Q : Py AnchorResult → Store → Prop}
    (failed : ∀ e, Q (.error e) s) (notFound : Q (.ok (.notFound txid)) s)
    (done : ∀ a : CheckedAnchor, a.txid = txid → (a.verified = true →
      n.chain.Publishes txid a.vout (batch.text "payload_hex")) → Q (.ok (.checked a)) s) :
    (checkAnchor batch anchor txid).Alone n.environment (fun _ => True) Q s := by
  simp only [checkAnchor, bind_eq, Alone, ensures_bind]
  apply transaction_alone (fun e => failed e)
  intro info hinfo
  rw [thenOk_ok]
  cases hfound : BitcoinRPC.findPayload (some (batch.text "payload_hex")) (namedVout anchor)
      info.vout.zipIdx none with
  | none => exact notFound
  | some found =>
    obtain ⟨payloadHex, foundVout⟩ := found
    obtain ⟨rfl, out, i, payload, hout, hacc, hvout⟩ := BitcoinRPC.findPayload_some hfound
    simp only [pure_eq, ensures_bind]
    apply contextAt_alone
    rintro (e | context)
    · exact failed e
    · apply done
      · rfl
      · intro hverified
        simp only [Bool.and_eq_true, decide_eq_true_eq] at hverified
        exact ⟨info.vout, BitcoinCore.mines_of_confirmed hinfo hverified.1.2, out, i, hout,
          hvout.symm, TxOut.pays_of_accepted hacc⟩

theorem verifyAnchor_alone {Q : Py AnchorResult → Store → Prop} (failed : ∀ e, Q (.error e) s)
    (plain : ∀ r : AnchorResult, (∀ a, r ≠ .checked a) → Q (.ok r) s)
    (done : ∀ a : CheckedAnchor, (a.verified = true →
      n.chain.Publishes a.txid a.vout (batch.text "payload_hex")) → Q (.ok (.checked a)) s) :
    (verifyAnchor batch anchor).Alone n.environment (fun _ => True) Q s := by
  unfold verifyAnchor
  split
  · apply checkAnchor_alone failed (plain _ fun _ h => AnchorResult.noConfusion h)
    intro a htxid ha
    rw [← htxid] at ha
    exact done a ha
  · exact plain _ fun _ h => AnchorResult.noConfusion h

variable {proofs : List Json} {proof : Json} {results : List AnchorResult}
  {Q : Py (List AnchorResult) → Store → Prop}

theorem verifyAnchors_alone {anchors : List Json} (hproof : proof ∈ proofs)
    (hnetwork : n.chain.networkName = (proof.getD "batch" .null).text "network")
    (hresults : SoundResults n proofs results)
    (done : ∀ results, SoundResults n proofs results → Q (.ok results) s) :
    (verifyAnchors (proof.getD "batch" .null) anchors results).Alone n.environment
      (fun _ => True) Q s := by
  induction anchors generalizing results with
  | nil => exact done results hresults
  | cons anchor rest ih =>
    simp only [verifyAnchors, bind_eq, Alone, ensures_bind, ensures_outcome]
    apply verifyAnchor_alone
    · exact fun e => done _ (hresults.append fun _ h => AnchorResult.noConfusion h)
    · exact fun r hr => ih (hresults.append fun a he => absurd he (hr a))
    · intro a ha
      apply ih
      apply hresults.append
      intro a' he
      obtain rfl := AnchorResult.checked.inj he
      exact ⟨proof, hproof, fun hv => ⟨hnetwork, ha hv⟩⟩

theorem checkProofBatch_alone {Q : Py Unit → Store → Prop} (failed : ∀ e, Q (.error e) s)
    (done : n.chain.networkName = batch.text "network" → Q (.ok ()) s) :
    (checkProofBatch batch).Alone n.environment (fun _ => True) Q s := by
  unfold checkProofBatch
  split
  · simp only [bind_eq, Alone, ensures_bind, ensures_ofExcept]
    cases Batches.validateBatch _ with
    | error e => exact failed e
    | ok _ =>
      simp only [thenOk_ok, ensures_bind, BitcoinCore.environment, node_ensures]
      apply network_alone n.chain.flaky_within failed
      simp only [thenOk_ok, node_ensures, check, require, ensures_ofExcept]
      split_ifs with hnetwork
      · exact done hnetwork
      · exact failed _
  · exact failed _

theorem verifyProofAnchors_alone (hproof : proof ∈ proofs) (hresults : SoundResults n proofs results)
    (done : ∀ results, SoundResults n proofs results → Q (.ok results) s) :
    (verifyProofAnchors results proof).Alone n.environment (fun _ => True) Q s := by
  simp only [verifyProofAnchors, bind_eq, Alone, ensures_bind, ensures_outcome]
  apply checkProofBatch_alone
  · exact fun e => done _ (hresults.append fun _ h => AnchorResult.noConfusion h)
  · exact fun hnetwork => verifyAnchors_alone hproof hnetwork hresults done

/-- Whatever the anchors of a bundle say, a verified one has its output in the active chain of the
batch's network, with the batch's payload. -/
theorem verified_anchor_published {bundle : Json} {verdict : BitcoinVerdict} {s' : Store}
    (h : (verifyProofBundleAgainstBitcoin bundle).Exec n.environment s (.ok verdict) s') :
    ∀ a, .checked a ∈ verdict.anchorResults → a.verified = true →
      ∃ proof ∈ bundle.items "proofs",
        n.chain.networkName = (proof.getD "batch" .null).text "network" ∧
        n.chain.Publishes a.txid a.vout ((proof.getD "batch" .null).text "payload_hex") := by
  have hrun : (verifyProofBundleAgainstBitcoin bundle).Alone n.environment (fun _ => True)
      (fun r _ => ∀ verdict, r = .ok verdict →
        SoundResults n (bundle.items "proofs") verdict.anchorResults) s := by
    simp only [verifyProofBundleAgainstBitcoin, bind_eq, Alone, ensures_bind, ensures_ofExcept]
    cases ProofBundles.validateProofBundleShape bundle with
    | error e => exact nofun
    | ok _ =>
    simp only [thenOk_ok, ensures_bind, ensures_ofExcept]
    cases verifyProofBundle bundle with
    | error e => exact nofun
    | ok structural =>
    simp only [thenOk_ok, ensures_bind]
    apply ensures_foldlM fun _ results _ => SoundResults n (bundle.items "proofs") results
    · intro done proof rest results s hproofs hresults
      have hproof : proof ∈ bundle.items "proofs" := hproofs ▸ List.mem_append_right _ List.mem_cons_self
      exact verifyProofAnchors_alone hproof hresults fun _ h => h
    · intro results s hresults
      simp only [thenOk_ok, ensures_bind, BitcoinCore.environment, node_ensures]
      apply network_alone n.chain.flaky_within
      · exact fun e => nofun
      · rintro _ ⟨⟩
        exact hresults
    · exact fun a ha => absurd ha List.not_mem_nil
  intro a ha hverified
  obtain ⟨proof, hproof, hsound⟩ := Ensures.exec (fun _ => rfl) hrun h verdict rfl a ha
  exact ⟨proof, hproof, hsound hverified⟩

end Service

end Soundness

section Witness

attribute [local instance] conformanceKeys

/-- A transaction that commits to the batch of the conformance vector. -/
def minedTx : Tx :=
  ⟨some "2222222222222222222222222222222222222222222222222222222222222ab2", sampleTx.vout⟩

def sampleCore : BitcoinCore where
  chain :=
    { network := "signet"
      blocks := [("00000000000000000000000000000000000000000000000000000000000000aa",
        ⟨some 1, [minedTx]⟩)]
      hashes_nodup := by decide
      txids_nodup := by decide
      numbers_nodup := by decide }
  stale := []
  mempool := []
  wallet := [⟨minedTx, 0, none, le_rfl⟩]
  txindex := false
  medianTime _ := 1

/-- A reference to the output in upper-case digits with a wrong block hash. -/
def sampleReference : Anchor where
  txid := "2222222222222222222222222222222222222222222222222222222222222AB2"
  vout := 1
  batchId := storedBatch.batchId
  network := "signet"
  status := .unverified
  anchoredAt := 1
  blockHash := some "3333333333333333333333333333333333333333333333333333333333333333"
  blockHeight := some 7

def sampleProof : RecordProof :=
  ⟨conformanceRecord.text "record_id", storedBatch, 0, [], [sampleReference]⟩

theorem sampleReference_portable : sampleReference.Portable := by
  have hvalid : Anchors.validateAnchorReference sampleReference.json = .ok () := by decide +kernel
  obtain ⟨htxid, hid, hnetwork, hat, hhash, hheight⟩ := validateAnchorReference_json_iff.mp hvalid
  refine ⟨htxid, ⟨by decide, by decide⟩, hid, hnetwork, ⟨by decide, by decide⟩, hhash,
    fun h he => ⟨hheight h he, ?_⟩⟩
  obtain rfl := Option.some.inj he
  decide

theorem sampleProof_good : sampleProof.Good ⟨conformanceRecord, conformanceRecord_valid⟩ where
  recordId := rfl
  dict := conformanceStore_dicts.batches _ (List.mem_singleton.mpr rfl)
  index := by decide
  path := ⟨[], rfl, by decide, nofun, by decide +kernel⟩
  anchors a ha := List.mem_singleton.mp ha ▸ sampleReference_portable

theorem sampleProof_verified :
    ((Service.verifyProofAnchors [] sampleProof.json).eval sampleCore.oracle
      .empty).1.toOption.any (·.any Service.AnchorResult.verified) = true := by
  simp only [Service.verifyProofAnchors, Service.checkProofBatch, Batches.validateBatch,
    Batches.validateIdentity, Batches.calculateBatchId, Codec.sha256Hex, sha256_eq_words]
  decide +kernel

theorem verified_anchor_published_sample : ∃ bundle verdict,
    ((Service.verifyProofBundleAgainstBitcoin bundle).eval sampleCore.oracle .empty).1 =
      .ok verdict ∧ verdict.anyBitcoinAnchorVerified = true ∧
    ∀ a, .checked a ∈ verdict.anchorResults → a.verified = true →
      ∃ proof ∈ bundle.items "proofs",
        sampleCore.chain.networkName = (proof.getD "batch" .null).text "network" ∧
        sampleCore.chain.Publishes a.txid a.vout
          ((proof.getD "batch" .null).text "payload_hex") := by
  have hgood : ∀ p ∈ [sampleProof], p.Good ⟨conformanceRecord, conformanceRecord_valid⟩ :=
    fun p hp => List.mem_singleton.mp hp ▸ sampleProof_good
  obtain ⟨bundle, -, hshape, hrecord, hproofs⟩ :=
    createProofBundle_good (conformanceStore_dicts.records _ (List.mem_singleton.mpr rfl)) hgood
  obtain ⟨structural, hstructural, -⟩ := verifyProofBundle_good hshape hrecord hproofs hgood
  have hitems : bundle.items "proofs" = [sampleProof.json] := by
    rw [Json.items, hproofs]
    rfl
  have hx := exec_eval (H := sampleCore.environment) sampleCore.obeys_environment
    (Service.verifyProofBundleAgainstBitcoin bundle) .empty
  have hverified := sampleProof_verified
  generalize hresults : (Service.verifyProofAnchors [] sampleProof.json).eval sampleCore.oracle
    .empty = results at hverified
  obtain ⟨results | results, t⟩ := results
  · cases hverified
  · have hr : ((Service.verifyProofBundleAgainstBitcoin bundle).eval sampleCore.oracle .empty).1 =
        .ok ⟨structural, "signet", results, results.any Service.AnchorResult.payloadMatches,
          results.any Service.AnchorResult.verified⟩ := by
      simp only [Service.verifyProofBundleAgainstBitcoin, hshape, hstructural, hitems,
        List.foldlM_cons, List.foldlM_nil, bind_eq, pure_eq, Prog.ofExcept, ret_bind, eval_bind,
        hresults]
      rfl
    rw [hr] at hx
    exact ⟨bundle, _, hr, hverified, Service.verified_anchor_published hx⟩

end Witness

end HistoryAnchor

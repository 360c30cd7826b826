import HistoryAnchor.Publication.Broadcasts
import HistoryAnchor.Scan.Publication

/-! # What was sent is confirmed

A transaction that a coordinator has sent commits to a stored batch. Once a block has it
and a scan passes the block, the batch is confirmed there and its records are published,
whether or not the coordinator lived to record what it sent.
-/

namespace HistoryAnchor

open Python Effects Prog Discovery Tables

section Mined

variable [Ed25519] {F : Set Chain} {start next : ℤ} {s₀ s s' : Store} {c c₀ : Chain}
  {o : Output} {b : BlockContext} {t : ℤ} {r : Commitment} {payloadHex : PyStr}

/-- The calls of a run of scans that begins in a store which follows a chain of the family. -/
theorem Scans.follows_from {N M : Store → Prop} (hk : ∀ c ∈ F, Keeps c ∅ N M) (hF : Consistent F)
    (h₀ : 0 ≤ start) (hc₀ : c₀ ∈ F) (hs₀ : s₀.Follows c₀ start next ∅) (hN : N s₀)
    (h : Scans F start s₀ c s) : c ∈ F ∧ N s ∧ ∃ next, s.Follows c start next ∅ := by
  induction h with
  | one hm h => exact ⟨hm, h.follows (hk _ hm) h₀ (hF _ hc₀ _ hm) hs₀ hN⟩
  | more _ hm h ih =>
    obtain ⟨hc, hN', next, hf⟩ := ih
    exact ⟨hm, h.follows (hk _ hm) h₀ (hF _ hc _ hm) hf hN'⟩

namespace Store

def Acknowledges (s : Store) (payloadHex : PyStr) : Prop :=
  ∀ r ∈ s.commitments, r.payloadHex = payloadHex → ∃ a ∈ s.anchors, a.Confirms r

theorem Acknowledges.upsert_other (hs : s.Acknowledges payloadHex) {h : (o.row b t).Fits}
    (hne : o.payloadHex ≠ payloadHex) : (s.upsertCommitment (o.row b t) h).Acknowledges payloadHex := by
  intro r hr hp
  by_cases hpoint : r.point = (o.row b t).point
  · have he := core_of_mem_upsertCommitment hr hpoint
    exact absurd ((congrArg Core.payloadHex he).symm.trans hp) hne
  · exact hs r ((mem_upsertCommitment_of_ne hpoint).mp hr) hp

theorem Acknowledges.record_found (hs : s.Acknowledges payloadHex) {h : (o.row b t).Fits}
    (hl : s.Local o.payload.manifestHash o.payloadHex)
    (hr : r ∈ (s.upsertCommitment (o.row b t) h).commitments)
    (he : r.core = o.core b.height b.blockHash) :
    ((s.upsertCommitment (o.row b t) h).register r).Acknowledges payloadHex := by
  have hmem : ∀ a, a ∈ ((s.upsertCommitment (o.row b t) h).register r).anchors ↔
      (a ∈ s.anchors ∧ a.point ≠ r.point) ∨ a = Service.confirmedAnchor r := fun a =>
    mem_confirm (s := s.upsertCommitment (o.row b t) h) (local_of_core_eq hl he).exists_batch
  intro r₁ hr₁ hp₁
  obtain ⟨r', hr', he'⟩ := exists_of_mem_register hr₁
  by_cases hp : r'.point = r.point
  · refine ⟨_, (hmem _).mpr (Or.inr rfl), (confirmedAnchor_confirms r).of_core ?_⟩
    rw [← he', Table.eq_of_key hr' hr hp]
  · have hne : r'.point ≠ (o.row b t).point := fun hq =>
      hp (hq.trans (congrArg Core.point he).symm)
    obtain ⟨a, ha, hcf⟩ := hs r' ((mem_upsertCommitment_of_ne hne).mp hr')
      ((congrArg Core.payloadHex he').trans hp₁)
    exact ⟨a, (hmem a).mpr (Or.inl ⟨ha, hcf.2.1 ▸ hp⟩), hcf.of_core he'⟩

theorem Acknowledges.rewind (hs : s.Acknowledges payloadHex) (h : ℤ) :
    (s.rewindBitcoinScan h).Acknowledges payloadHex := by
  intro r hr hp
  obtain ⟨hr, hh⟩ := mem_rewindBitcoinScan.mp hr
  obtain ⟨a, ha, hcf⟩ := hs r hr hp
  refine ⟨a, mem_anchors_rewindBitcoinScan.mpr ⟨a, ha, ?_⟩, hcf⟩
  rw [if_neg]
  rintro ⟨r', hr', hh', hpoint⟩
  rw [Table.eq_of_key hr' hr (hpoint.trans hcf.2.1)] at hh'
  exact absurd hh (not_le.mpr hh')

/-- The rows of a stored batch are confirmed, and the batches are as before. -/
structure Acknowledging (s₀ : Store) (payloadHex : PyStr) (s : Store) : Prop where
  acknowledges : s.Acknowledges payloadHex
  batches : s.batches = s₀.batches
  recordBatches : s.recordBatches = s₀.recordBatches

theorem keeps_acknowledging (c : Chain) {batch : Batch} (hb : batch ∈ s₀.batches) :
    Keeps c ∅ (s₀.Acknowledging batch.payloadHex) fun _ => True where
  weaken _ _ := trivial
  rewind s a h := ⟨h.acknowledges.rewind a, h.batches, h.recordBatches⟩
  put s row h := ⟨h.acknowledges, h.batches, h.recordBatches⟩
  upsert _ _ _ _ _ _ _ _ := trivial
  absent s o ctx t hf h _ hcommits habs := by
    refine ⟨h.acknowledges.upsert_other ?_, h.batches, h.recordBatches⟩
    intro hp
    obtain ⟨block, -, o', ho', he⟩ := hcommits
    have hdecode := Output.decode ho'
    rw [← show o.payloadHex = o'.payloadHex from congrArg Core.payloadHex he] at hdecode
    have hlocal := (local_iff_of_decode (s := s) hdecode).mpr ⟨batch, h.batches ▸ hb, hp.symm⟩
    rw [← show o.payload.manifestHash = o'.payload.manifestHash from congrArg Core.batchId he]
      at hlocal
    exact habs hlocal
  found s o ctx t hf h _ _ hl r hr he := by
    refine ⟨trivial, h.acknowledges.record_found hl hr he, ?_, ?_⟩
    · exact (confirm_batches (c := r)).trans h.batches
    · exact (confirm_recordBatches (c := r)).trans h.recordBatches

end Store

omit [Ed25519] in
theorem exists_of_matchingVouts {vout : List TxOut} {n : ℕ}
    (h : matchingVouts payloadHex vout = [n]) : ∃ out ∈ vout, out.number 0 = n ∧
      Bitcoin.extractPayloadFromScript out.scriptHex = some payloadHex := by
  have hn : n ∈ matchingVouts payloadHex vout := by
    rw [h]
    exact List.mem_cons_self
  obtain ⟨out, hout, hnum⟩ := List.mem_map.mp hn
  obtain ⟨hm, hp⟩ := List.mem_filter.mp hout
  exact ⟨out, hm, hnum, of_decide_eq_true hp⟩

omit [Ed25519] in
theorem Tx.accepted_of_matchingVouts {tx : Tx} {txid : PyStr} {batch : Batch} {n : ℕ}
    (hid : tx.txid = some txid) (hnum : ∀ out ∈ tx.vout, out.n ≠ none)
    (hn : matchingVouts batch.payloadHex tx.vout = [n]) : ∃ o ∈ tx.accepted,
      o.point = (txid, n) ∧ o.payloadHex = batch.payloadHex ∧
        o.payload.manifestHash = batch.batchId := by
  obtain ⟨out, hout, hnumber, hextract⟩ := exists_of_matchingVouts hn
  obtain ⟨i, hi, rfl⟩ := List.getElem_of_mem hout
  obtain ⟨payload, hdecode, hmanifest⟩ := batch.decode
  have hne : batch.payloadHex ≠ [] := by
    intro hnil
    obtain ⟨raw, hraw, hlen, -⟩ := Bitcoin.decodeAnchorPayload_ok.mp hdecode
    rw [hnil] at hraw
    obtain rfl : [] = raw := Option.some.inj hraw
    cases hlen
  have haccepted : acceptedPayload (tx.vout[i]).scriptHex = some (batch.payloadHex, payload) := by
    simp only [acceptedPayload, hextract, if_neg hne, hdecode]
  obtain ⟨k, hk⟩ := Option.ne_none_iff_exists'.mp (hnum _ hout)
  refine ⟨⟨(txid, (tx.vout[i]).number i), batch.payloadHex, payload⟩, ?_, ?_, rfl, hmanifest⟩
  · simp only [Tx.accepted, hid, List.mem_filterMap]
    refine ⟨(tx.vout[i], i), ?_, ?_⟩
    · rw [List.mem_zipIdx_iff_getElem?]
      exact List.getElem?_eq_getElem hi
    · rw [haccepted]
      rfl
  · rw [← hnumber, TxOut.number, TxOut.number, hk]
    rfl

/-- Once a scan has passed a block with a transaction that a coordinator sent, whatever became of
the coordinator, the anchor of its one commitment is confirmed in that block, and every record of the
batch is published at this height or earlier. -/
theorem sent_confirmed {k : Terms} {decode : PyStr → Option RawTx} {rpcAnswers : Answers}
    {ps : List (Coordinator Unit)} {l : Ledger} {raw blockHash : PyStr} {tx : RawTx} {height : ℤ}
    {block : Block} {mined : Tx} (hnetwork : rpcAnswers.On k.network) (hs₀ : s₀.Filed)
    (hpool : Pool (coordinating rpcAnswers decode) {q | k.Runs q} (s₀, ⟨[], []⟩) ps (s, l))
    (hsent : raw ∈ l.sent) (hread : decode raw = some tx) (hnum : ∀ out ∈ tx.vout, out.n ≠ none)
    (hF : Consistent F) (h₀ : 0 ≤ start) (hc₀ : c₀ ∈ F) (hs : s.Follows c₀ start next ∅)
    (hnew : ∀ r ∈ s.commitments, ∀ out ∈ tx.vout,
      Bitcoin.extractPayloadFromScript out.scriptHex ≠ some r.payloadHex)
    (hscans : Scans F start s c s') (hat : c.at? height = some (blockHash, block))
    (hmined : mined ∈ block.tx) (hid : mined.txid = some tx.txid) (hvout : mined.vout = tx.vout)
    (hpassed : ∃ row ∈ s'.bitcoinBlocks, row.height = height) :
    ∃ batch n, k.Pays decode (s', l) batch raw tx n ∧
      (∃ a ∈ s'.anchors, a.point = (tx.txid, n) ∧ a.batchId = batch.batchId ∧
        a.status = .confirmed ∧ a.blockHash = some blockHash ∧ a.blockHeight = some height) ∧
      ∀ recordId ∈ batch.recordIds, recordId ∈ s'.anchoredRecordIds ∧
        ∃ h ≤ height, s'.confirmedAnchorHeightForRecord recordId = some h := by
  obtain ⟨hpaid, hfiled⟩ := pool_covers hnetwork hs₀ hpool
  obtain ⟨batch, tx', n, hpays⟩ := hpaid raw hsent
  obtain rfl : tx' = tx := Option.some.inj (hpays.read.symm.trans hread)
  have hstart : s.Acknowledging batch.payloadHex s := by
    refine ⟨fun r hr hp => ?_, rfl, rfl⟩
    obtain ⟨out, hout, -, hextract⟩ := exists_of_matchingVouts hpays.vout
    exact absurd (hp ▸ hextract) (hnew r hr out hout)
  obtain ⟨-, hkept, next', hf⟩ := hscans.follows_from
    (fun c _ => Store.keeps_acknowledging c hpays.stored) hF h₀ hc₀ hs hstart
  -- The row of the commitment, and the anchor that confirms it.
  obtain ⟨o, ho, hpoint, hpayload, hmanifest⟩ := Tx.accepted_of_matchingVouts hid
    (hvout ▸ hnum) (hvout ▸ hpays.vout)
  have hob : o ∈ block.accepted := Block.mem_accepted.mpr ⟨mined, hmined, ho⟩
  obtain ⟨row, hrow, rfl⟩ := hpassed
  obtain ⟨h₁, h₂, -⟩ := hf.hashAt_of_mem hrow
  have hcore : o.core row.height blockHash ∈ s'.cores := by
    rw [hf.cores, overlay_empty]
    exact ⟨Chain.commits_of_mem hat hob, h₁, h₂⟩
  obtain ⟨r, hr, he⟩ := hcore
  obtain ⟨a, ha, hst, hp, hb, hhash, hheight⟩ := hkept.acknowledges r hr
    ((congrArg Core.payloadHex he).trans hpayload)
  have hbatchId : a.batchId = batch.batchId :=
    hb.trans ((congrArg Core.batchId he).trans hmanifest)
  have hconfirmedAt : a.blockHeight = some row.height :=
    hheight.trans (congrArg some (congrArg Core.height he))
  refine ⟨batch, n, { hpays with stored := ?_ }, ⟨a, ha, ?_, hbatchId, hst, ?_, hconfirmedAt⟩, ?_⟩
  · rw [hkept.batches]
    exact hpays.stored
  · exact hp.trans ((congrArg Core.point he).trans hpoint)
  · exact hhash.trans (congrArg some (congrArg Core.blockHash he))
  · intro recordId hrecord
    obtain ⟨link, hlink, hlr, hlb⟩ := hfiled batch hpays.stored recordId hrecord
    rw [← hkept.recordBatches] at hlink
    have hanchored : a.batchId = link.batchId := hbatchId.trans hlb.symm
    have hmem : row.height ∈ s'.confirmedHeights recordId :=
      Store.mem_confirmedHeights.mpr ⟨link, hlink, hlr, a, ha, hanchored, hst, hconfirmedAt⟩
    refine ⟨Store.mem_anchoredRecordIds.mpr ⟨link, hlink, hlr, a, ha, hanchored, hst⟩, ?_⟩
    rw [Store.confirmedAnchorHeightForRecord]
    cases hmin : (s'.confirmedHeights recordId).min? with
    | none =>
      rw [List.min?_eq_none_iff.mp hmin] at hmem
      exact absurd hmem List.not_mem_nil
    | some h => exact ⟨h, (List.min?_eq_some_iff.mp hmin).2 _ hmem, rfl⟩

end Mined

section Witness

attribute [local instance] conformanceKeys

theorem sampleSent_frame : sampleSent.1.bitcoinBlocks.rows = [] ∧
    sampleSent.1.commitments.rows = [] := ⟨rfl, rfl⟩

/-- The sample transaction is confirmed in the sample chain. -/
theorem sent_confirmed_sample : ∃ s', Scans {sampleOld} 0 sampleSent.1 sampleOld s' ∧
    ∃ batch n, sampleTerms.Pays sampleDecode (s', sampleSent.2) batch "signed"
        ⟨"1f", sampleTx.vout, 500, true⟩ n ∧
      (∃ a ∈ s'.anchors, a.point = (ascii "1f", n) ∧ a.batchId = batch.batchId ∧
        a.status = .confirmed ∧ a.blockHash = some (ascii "0a") ∧ a.blockHeight = some 1) ∧
      ∀ recordId ∈ batch.recordIds, recordId ∈ s'.anchoredRecordIds ∧
        ∃ h ≤ 1, s'.confirmedAnchorHeightForRecord recordId = some h := by
  obtain ⟨ps, hps⟩ := pool_sampleSent
  obtain ⟨hblocks, hrows⟩ := sampleSent_frame
  have hscan : Scans {sampleOld} 0 sampleSent.1 sampleOld
      ((scanBitcoin 0 500).eval sampleOld.oracle sampleSent.1).2 :=
    .one rfl (.of_eval (by decide +kernel))
  have hat : sampleOld.at? 1 = some (ascii "0a", ⟨some 2, [sampleTx]⟩) := rfl
  have hmined : sampleTx ∈ (⟨some 2, [sampleTx]⟩ : Block).tx := List.mem_cons_self
  refine ⟨_, hscan, sent_confirmed sampleOld_on conformanceStore_filed hps List.mem_cons_self rfl
    (by decide) (by rintro c rfl c' rfl; decide) le_rfl (Set.mem_singleton sampleOld)
    (Store.follows_empty (hashes_of_rows hblocks) (cores_of_rows hrows) sampleOld 0) ?_ hscan hat
    hmined rfl rfl (by decide +kernel)⟩
  intro r hr
  rw [Table.mem_def] at hr
  exact absurd (hrows ▸ hr) List.not_mem_nil

end Witness

end HistoryAnchor

import HistoryAnchor.Publication.Checks

/-! # Confirmations after a reorganisation

Only a rewind takes a confirmation back, and it looks at the points of the commitment
rows that it deletes. A confirmation therefore survives its block unless a row
of that block stands behind it. Scans and resolutions confirm from such rows; a
verification confirms from what Bitcoin Core says, whatever has been scanned.
-/

namespace HistoryAnchor

open Python Effects Prog Discovery Tables

section Runs

variable [Ed25519] {F : Set Chain} {s s' : Store} {c d : Chain}

namespace Store

/-- Every confirmed anchor has a commitment row at its point that is of its block. -/
def Backed (s : Store) : Prop := ∀ a ∈ s.anchors, a.status = .confirmed →
  ∃ x ∈ s.cores, x.point = a.point ∧ a.blockHash = some x.blockHash

theorem Backed.addAnchor (hs : s.Backed) {a : Anchor} (ha : a.status = .confirmed →
    ∃ x ∈ s.cores, x.point = a.point ∧ a.blockHash = some x.blockHash) :
    (s.addAnchor a).2.Backed := by
  obtain ⟨-, hc, -⟩ := s.addAnchor_frame a
  intro a' ha' hst
  rw [cores, hc]
  rcases mem_or_eq_of_mem_addAnchor ha' with hold | rfl
  · exact hs a' hold hst
  · exact ha hst

theorem Backed.confirm {r : Commitment} (hs : s.Backed) (hr : r ∈ s.commitments)
    (hl : ∃ b ∈ s.batches, b.batchId = r.batchId) : (s.confirm r).Backed := by
  intro a ha hst
  rw [cores_confirm]
  rcases (mem_confirm hl).mp ha with ⟨hold, -⟩ | rfl
  · exact hs a hold hst
  · exact ⟨r.core, ⟨r, hr, rfl⟩, rfl, rfl⟩

theorem Backed.markCommitmentResolved (hs : s.Backed) (p : Point) :
    (s.markCommitmentResolved p).Backed := by
  rw [Backed, cores_markCommitmentResolved]
  exact hs

theorem Backed.register {r : Commitment} (hs : s.Backed) (hr : r ∈ s.commitments)
    (hl : ∃ b ∈ s.batches, b.batchId = r.batchId) : (s.register r).Backed :=
  (hs.confirm hr hl).markCommitmentResolved r.point

theorem Backed.rewind (hs : s.Backed) (h : ℤ) : (s.rewindBitcoinScan h).Backed := by
  intro a ha hst
  obtain ⟨a₀, ha₀, rfl⟩ := mem_anchors_rewindBitcoinScan.mp ha
  split_ifs at hst ⊢ with hdeleted
  · cases hst
  · obtain ⟨x, ⟨r, hr, rfl⟩, hp, hb⟩ := hs a₀ ha₀ hst
    refine ⟨r.core, ?_, hp, hb⟩
    rw [cores_rewindBitcoinScan]
    refine ⟨⟨r, hr, rfl⟩, not_lt.mp fun hlt => hdeleted ⟨r, hr, hlt, hp⟩⟩

theorem Backed.upsert {o : Output} {ctx : BlockContext} {t : ℤ} {h : (o.row ctx t).Fits}
    (hs : s.Backed) (honly : s.Only ∅ o ctx) : (s.upsertCommitment (o.row ctx t) h).Backed := by
  intro a ha hst
  obtain ⟨x, hx, hp, hb⟩ := hs a ha hst
  refine ⟨x, ?_, hp, hb⟩
  rw [cores_upsertCommitment]
  by_cases hpo : x.point = o.point
  · exact Or.inl ((honly x hx hpo).resolve_left (Set.notMem_empty x))
  · exact Or.inr ⟨hx, hpo⟩

end Store

/-- The operations one after another, each on a chain of the family, whether it returns or raises. A
scan begins with rows of stored blocks only, and a transaction is verified once the rows of its
outputs in the active chain are there. -/
inductive ChainRuns (F : Set Chain) : Store → Prop
  | empty : ChainRuns F .empty
  | operation {s s' : Store} {c : Chain} {r : Py Unit} (op : Operation) : ChainRuns F s → c ∈ F →
      (∀ startHeight maxBlocks, op = .scanBitcoin startHeight maxBlocks → s.Settled) →
        op.run.Exec (environment c.flaky) s r s' → ChainRuns F s'
  | verification {s s' : Store} {c : Chain} {batchId : PyStr} {txid : Option PyStr}
      {r : Py Service.Verification} : ChainRuns F s → c ∈ F →
        (∀ txid', Service.chosenTxid (s.anchors.rows.filter (·.batchId = batchId)) txid =
            .ok txid' → ∀ x, c.Commits x → x.point.1 = txid' → x ∈ s.cores) →
          (Service.verifyBitcoinAnchor batchId txid).Exec (verifying c.flaky c.tells) s r s' →
            ChainRuns F s'

theorem Service.Verified.commits {batch : Batch} {txid : PyStr} {a : Anchor}
    (h : Verified c c.tells s batch txid a) (hst : a.status = .confirmed) :
    ∃ x, c.Commits x ∧ x.point = a.point ∧ x.point.1 = txid ∧ a.blockHash = some x.blockHash := by
  obtain ⟨info, x, -, hinfo, ⟨out, i, payload, hm, hacc, hvout⟩, hx, hax, hconf, -⟩ :=
    h.confirmed hst
  obtain ⟨height, b, hat, t, ht, htxid, houts⟩ := Chain.tells_describe hinfo x hx hconf
  have ho : (⟨(txid, out.number i), batch.payloadHex, payload⟩ : Output) ∈ b.accepted := by
    apply Block.mem_accepted.mpr
    refine ⟨t, ht, ?_⟩
    rw [Tx.accepted, htxid]
    dsimp only
    rw [List.mem_filterMap]
    refine ⟨(out, i), houts ▸ hm, ?_⟩
    rw [hacc]
    rfl
  refine ⟨_, Chain.commits_of_mem hat ho, ?_, rfl, hax⟩
  exact Prod.ext h.transaction.symm hvout.symm

end Runs

section Witness

attribute [local instance] conformanceKeys

variable {F : Set Chain} {s : Store} {c : Chain}

theorem ChainRuns.eval (op : Operation) (h : ChainRuns F s) (hc : c ∈ F)
    (hset : ∀ startHeight maxBlocks, op = .scanBitcoin startHeight maxBlocks → s.Settled) :
    ChainRuns F (op.run.eval c.oracle s).2 :=
  .operation op h hc hset (exec_eval (H := environment c.flaky)
    (c.obeys_oracle fun _ _ _ => Or.inl rfl) op.run s)

def sampleBacked : Store :=
  ((Operation.scanBitcoin 0 500).run.eval sampleOld.oracle conformanceStore).2

/-- Bitcoin Core on the old chain; its wallet does not know the transaction. -/
def sampleDescription {β : Type} : TxCall β → Py β
  | .gettransaction _ => raise .bitcoinRPCError "Invalid or non-wallet transaction id"
  | .getrawtransaction txid _ =>
    if txid = ascii "1f" then .ok ⟨sampleTx.vout, some 1, some "0a"⟩
    else raise .bitcoinRPCError "No such mempool transaction"
  | .getblockheader blockHash =>
    if blockHash = ascii "0a" then .ok ⟨some 1, some 2, some 2, some 1⟩
    else raise .bitcoinRPCError "Block not found"

def sampleVerifier : Oracle VerifyCall Exc Store := fun _ call s =>
  match call with
  | .node c => sampleOld.oracle c s
  | .tx c => (sampleDescription c, s)

/-- The node after a scan of the old chain and a verification of the transaction. -/
def sampleChecked : Store :=
  ((Service.verifyBitcoinAnchor storedBatch.batchId (some "1f")).eval sampleVerifier sampleBacked).2

end Witness

end HistoryAnchor

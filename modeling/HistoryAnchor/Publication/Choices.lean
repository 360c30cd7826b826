import HistoryAnchor.Exchange.Containment
import HistoryAnchor.Publication.Verdicts

/-! # The anchor that is verified

Without a txid the verification looks at one transaction only: that of the newest row of
the batch, at the output number and in the block that the first row with this txid
names. So the verdict depends on rows that peers have added.
-/

namespace HistoryAnchor

open Python Effects Prog Discovery Tables

namespace BitcoinCore

variable {n : BitcoinCore} {txid : PyStr} {hint : Option PyStr} {outs : List TxOut} {info : TxInfo}

/-- Hashes are spelled as Bitcoin Core spells them, heights have four bytes, and the transactions
that wait for a block are in none. -/
structure Faithful (n : BitcoinCore) : Prop where
  hashes : ∀ b ∈ n.chain.blocks, ∃ raw, raw.length = 32 ∧ b.1 = hex raw
  txids : ∀ b ∈ n.chain.blocks, ∀ t ∈ b.2.tx, ∀ id, t.txid = some id →
    ∃ raw, raw.length = 32 ∧ id = hex raw
  height : n.chain.blocks.length ≤ 2 ^ 32
  waiting : ∀ t ∈ n.mempool, ∀ txid outs, t.Named txid → ¬n.chain.Mines txid outs

/-- The node can look the mined transaction up: it is in the wallet, or in the active block that is
named, or there is an index and no block is named. -/
def Finds (n : BitcoinCore) (txid : PyStr) (hint : Option PyStr) : Prop :=
  (∃ w ∈ n.wallet, w.tx.Named txid) ∨
    match hint.filter (· ≠ []) with
    | none => n.txindex = true
    | some y => ∃ h x b, n.chain.at? h = some (x, b) ∧ SameHash x y ∧ ∃ t ∈ b.tx, t.Named txid

/-- What `transaction` returns. -/
def lookup (n : BitcoinCore) (txid : PyStr) (hint : Option PyStr) : Py TxInfo :=
  match n.gettransaction txid with
  | .ok info => .ok info
  | .error e =>
    if e.type = .bitcoinRPCError then n.getrawtransaction txid (hint.filter (· ≠ []))
    else .error e

theorem sameHash_hex {raw raw' : Bytes} (h : SameHash (hex raw) (hex raw')) : raw = raw' := by
  obtain ⟨x, hx, hx'⟩ := h
  have h₁ := hx.2.1
  have h₂ := hx'.2.1
  rw [fromHex_hex] at h₁ h₂
  exact Option.some.inj (h₁.trans h₂.symm)

theorem Faithful.sameHash_self (hf : n.Faithful) {h : ℤ} {x : PyStr} {b : Block}
    (hat : n.chain.at? h = some (x, b)) : SameHash x x := by
  obtain ⟨raw, hl, hx⟩ := hf.hashes _ (Chain.mem_of_at? hat)
  obtain rfl : x = hex raw := hx
  exact ⟨raw, ⟨by rw [length_hex, hl], fromHex_hex raw, hl⟩, by rw [length_hex, hl], fromHex_hex raw,
    hl⟩

theorem Faithful.tx_unique (hf : n.Faithful) {h h' : ℤ} {x x' : PyStr × Block} {t t' : Tx}
    (hx : n.chain.at? h = some x) (hx' : n.chain.at? h' = some x') (ht : t ∈ x.2.tx)
    (ht' : t' ∈ x'.2.tx) (hn : t.Named txid) (hn' : t'.Named txid) : h = h' ∧ t = t' := by
  obtain ⟨id, hid, hsame⟩ := hn
  obtain ⟨id', hid', hsame'⟩ := hn'
  obtain ⟨raw, -, rfl⟩ := hf.txids x (Chain.mem_of_at? hx) t ht id hid
  obtain ⟨raw', -, rfl⟩ := hf.txids x' (Chain.mem_of_at? hx') t' ht' id' hid'
  obtain rfl := sameHash_hex (hsame.trans hsame'.symm)
  exact Chain.tx_eq_of_txid hx hx' ht ht' hid hid'

theorem Faithful.block_unique (hf : n.Faithful) {h h' : ℤ} {x x' y : PyStr} {b b' : Block}
    (hx : n.chain.at? h = some (x, b)) (hx' : n.chain.at? h' = some (x', b'))
    (hs : SameHash x y) (hs' : SameHash x' y) : h = h' := by
  obtain ⟨raw, -, he⟩ := hf.hashes _ (Chain.mem_of_at? hx)
  obtain ⟨raw', -, he'⟩ := hf.hashes _ (Chain.mem_of_at? hx')
  obtain rfl : x = hex raw := he
  obtain rfl : x' = hex raw' := he'
  obtain rfl := sameHash_hex (hs.trans hs'.symm)
  apply Chain.height_inj (x := hex raw)
  · rw [Chain.hashAt, hx]
    rfl
  · rw [Chain.hashAt, hx']
    rfl

theorem mem_zipIdx_of_at? {c : Chain} {h : ℤ} {x : PyStr} {b : Block} (hat : c.at? h = some (x, b)) :
    ((x, b), h.toNat) ∈ c.blocks.zipIdx ∧ (h.toNat : ℤ) = h := by
  have h₀ := (Chain.at?_bounds hat).1
  rw [Chain.at?, if_neg (not_lt.mpr h₀)] at hat
  exact ⟨List.mem_zipIdx_iff_getElem?.mpr hat, Int.toNat_of_nonneg h₀⟩

theorem exists_mined (h : n.chain.Mines txid outs) : ∃ m, n.mined txid = some m := by
  obtain ⟨h, x, b, hat, t, ht, hn, -⟩ := h
  apply Option.isSome_iff_exists.mp
  rw [mined, List.findSome?_isSome_iff]
  refine ⟨_, (mem_zipIdx_of_at? hat).1, ?_⟩
  rw [Option.isSome_map, txIn, List.find?_isSome]
  exact ⟨t, ht, decide_eq_true hn⟩

theorem Faithful.mined_outs (hf : n.Faithful) (h : n.chain.Mines txid outs) {height : ℕ} {x : PyStr}
    {t : Tx} (hm : n.mined txid = some (height, x, t)) : t.vout = outs := by
  obtain ⟨h', x', b', hat', t', ht', hn', rfl⟩ := h
  obtain ⟨b, hat, ht, hn⟩ := mined_some hm
  rw [(hf.tx_unique hat hat' ht ht' hn hn').2]

theorem Faithful.exists_active (hf : n.Faithful) {h : ℤ} {x y : PyStr} {b : Block}
    (hat : n.chain.at? h = some (x, b)) (hs : SameHash x y) :
    ∃ height : ℕ, (height : ℤ) = h ∧ n.active y = some (height, x, b) := by
  have hsome : (n.active y).isSome := by
    rw [active, Option.isSome_map, List.find?_isSome]
    exact ⟨_, (mem_zipIdx_of_at? hat).1, decide_eq_true hs⟩
  obtain ⟨⟨height, x', b'⟩, ha⟩ := Option.isSome_iff_exists.mp hsome
  obtain ⟨hat', hs'⟩ := active_some ha
  have he := hf.block_unique hat' hat hs' hs
  rw [he, hat, Option.some.injEq, Prod.mk.injEq] at hat'
  obtain ⟨rfl, rfl⟩ := hat'
  exact ⟨height, he, ha⟩

theorem depth_pos {h : ℤ} {x : PyStr × Block} {height : ℕ} (hat : n.chain.at? h = some x)
    (he : (height : ℤ) = h) : 0 < n.depth height := by
  have hle := (Chain.at?_bounds hat).2
  rw [Chain.tip] at hle
  rw [depth]
  omega

theorem Faithful.lookup_mined (hf : n.Faithful) (hm : n.chain.Mines txid outs)
    (hfinds : n.Finds txid hint) :
    ∃ (height : ℕ) (x : PyStr) (b : Block), n.chain.at? height = some (x, b) ∧
      n.lookup txid hint = .ok ⟨outs, some (n.depth height), some x⟩ := by
  obtain ⟨⟨height, x, t⟩, hmined⟩ := exists_mined hm
  have houts := hf.mined_outs hm hmined
  obtain ⟨b, hat, -, -⟩ := mined_some hmined
  unfold lookup gettransaction
  cases hw : n.wallet.find? fun w => w.tx.Named txid with
  | some w =>
    rw [hmined]
    exact ⟨height, x, b, hat, by rw [← houts]⟩
  | none =>
    have hfinds := hfinds.resolve_left (by
      rintro ⟨w, hmem, hn⟩
      exact absurd (decide_eq_true hn) (List.find?_eq_none.mp hw w hmem))
    change ∃ (height : ℕ) (x : PyStr) (b : Block), n.chain.at? height = some (x, b) ∧
      n.getrawtransaction txid (hint.filter (· ≠ [])) = _
    cases hhint : hint.filter (· ≠ []) with
    | none =>
      rw [hhint] at hfinds
      have hwaiting : n.mempool.find? (fun t => t.Named txid) = none := by
        apply List.find?_eq_none.mpr
        intro t ht hn
        exact hf.waiting t ht txid outs (of_decide_eq_true hn) hm
      have hindex : n.txindex = true := hfinds
      rw [getrawtransaction, hwaiting, hindex, if_pos rfl, hmined]
      exact ⟨height, x, b, hat, by rw [← houts]⟩
    | some y =>
      rw [hhint] at hfinds
      obtain ⟨h', x', b', hat', hs, t', ht', hn'⟩ := hfinds
      obtain ⟨height', he, hactive⟩ := hf.exists_active hat' hs
      have hin : (txIn b' txid).isSome := by
        rw [txIn, List.find?_isSome]
        exact ⟨t', ht', decide_eq_true hn'⟩
      obtain ⟨t'', htx⟩ := Option.isSome_iff_exists.mp hin
      obtain ⟨ht'', hn''⟩ := txIn_some htx
      obtain ⟨_, _, _, hat₀, t₀, ht₀, hn₀, houts₀⟩ := hm
      have hsame := (hf.tx_unique hat' hat₀ ht'' ht₀ hn'' hn₀).2
      refine ⟨height', x', b', he ▸ hat', ?_⟩
      rw [getrawtransaction, transactionInBlock, hactive]
      dsimp only
      rw [htx, ← houts₀, ← hsame]

theorem finds_of_lookup (h : n.lookup txid hint = .ok info)
    (hc : 0 < info.confirmations.getD 0) : n.Finds txid hint := by
  unfold lookup gettransaction at h
  cases hw : n.wallet.find? fun w => w.tx.Named txid with
  | some w => exact Or.inl ⟨w, List.mem_of_find?_eq_some hw, by simpa using List.find?_some hw⟩
  | none =>
    rw [hw] at h
    replace h : n.getrawtransaction txid (hint.filter (· ≠ [])) = .ok info := h
    apply Or.inr
    cases hhint : hint.filter (· ≠ []) with
    | none =>
      rw [hhint, getrawtransaction] at h
      split at h
      · obtain rfl := Except.ok.inj h
        exact absurd hc (lt_irrefl _)
      · by_contra hindex
        rw [if_neg hindex] at h
        cases h
    | some y =>
      rw [hhint, getrawtransaction, transactionInBlock] at h
      split at h
      · rename_i hactive
        split at h
        · rename_i ht
          obtain ⟨hat, hs⟩ := active_some hactive
          obtain ⟨hm, hn⟩ := txIn_some ht
          exact ⟨_, _, _, hat, hs, _, hm, hn⟩
        · cases h
      · split at h
        · obtain rfl := Except.ok.inj h
          exact absurd hc (lt_irrefl _)
        · cases h
      · cases h

theorem Faithful.header_active (hf : n.Faithful) {height : ℕ} {x : PyStr} {b : Block}
    (hat : n.chain.at? height = some (x, b)) : ∃ header, n.getblockheader x = .ok header ∧
      header.height = some (height : ℤ) ∧ 0 ≤ header.confirmations.getD (-1) := by
  obtain ⟨height', he, hactive⟩ := hf.exists_active hat (hf.sameHash_self hat)
  obtain rfl : height' = height := by exact_mod_cast he
  rw [getblockheader, hactive]
  exact ⟨_, rfl, rfl, (depth_pos hat rfl).le⟩

end BitcoinCore

theorem TxOut.accepted_of_pays {o : TxOut} {payload : Bitcoin.AnchorPayload} {raw : Bytes}
    (hp : o.Pays (hex raw)) (hd : Bitcoin.decodeAnchorPayload (hex raw) = .ok payload) :
    acceptedPayload o.scriptHex = some (hex raw, payload) := by
  obtain ⟨script, hbuild, code, hscript, hcode⟩ := hp
  obtain ⟨raw', hraw, hextract⟩ := Bitcoin.extract_buildOpReturnScript hbuild
  obtain rfl : raw = raw' := Option.some.inj ((fromHex_hex raw).symm.trans hraw)
  have hsame : Bitcoin.extractPayloadFromScript o.scriptHex = some (hex raw) := by
    rw [← hextract, Bitcoin.extractPayloadFromScript, Bitcoin.extractPayloadFromScript, hscript,
      hcode]
  have hne : hex raw ≠ [] := by
    intro hnil
    rw [hnil] at hd
    exact absurd hd (by rw [Bitcoin.decodeAnchorPayload]; exact raise_ne_ok)
  unfold acceptedPayload
  rw [hsame]
  dsimp only
  rw [if_neg hne, hd]

theorem BitcoinRPC.findPayload_eq_some {expected : PyStr} {payload : Bitcoin.AnchorPayload}
    {vout : ℕ} {outs : List (TxOut × ℕ)} {firstValid : Option (PyStr × ℕ)}
    (h : ∃ out i, (out, i) ∈ outs ∧ acceptedPayload out.scriptHex = some (expected, payload) ∧
      out.number i = vout) :
    findPayload (some expected) (some vout) outs firstValid = some (expected, vout) := by
  induction outs generalizing firstValid with
  | nil =>
    obtain ⟨_, _, hm, -⟩ := h
    exact absurd hm List.not_mem_nil
  | cons x rest ih =>
    obtain ⟨output, index⟩ := x
    obtain ⟨out, i, hm, hacc, hnumber⟩ := h
    have hskip : ∀ fv, (out, i) ≠ (output, index) →
        findPayload (some expected) (some vout) rest fv = some (expected, vout) := by
      intro fv hne
      exact ih ⟨out, i, (List.mem_cons.mp hm).resolve_left hne, hacc, hnumber⟩
    rw [findPayload]
    dsimp only [Option.any_some, Option.all_some]
    split_ifs with hother
    · apply hskip
      rintro ⟨⟩
      exact of_decide_eq_true hother hnumber
    · have hvout : output.number index = vout := by simpa using hother
      split
      · rename_i hnone
        apply hskip
        rintro ⟨⟩
        rw [hacc] at hnone
        cases hnone
      · rename_i payload' decoded hfound
        split_ifs with hmatch
        · rw [of_decide_eq_true hmatch, hvout]
        · apply hskip
          rintro ⟨⟩
          rw [hacc] at hfound
          obtain ⟨rfl, -⟩ := Prod.mk.inj (Option.some.inj hfound)
          exact hmatch (decide_eq_true rfl)

theorem BitcoinRPC.findPayload_vout {expected : Option PyStr} {vout m : ℕ} {payloadHex : PyStr}
    {outs : List (TxOut × ℕ)} {firstValid : Option (PyStr × ℕ)}
    (hv : ∀ x ∈ firstValid, x.2 = vout)
    (h : findPayload expected (some vout) outs firstValid = some (payloadHex, m)) : m = vout := by
  induction outs generalizing firstValid with
  | nil =>
    rw [findPayload] at h
    split_ifs at h
    exact hv _ h
  | cons x rest ih =>
    obtain ⟨output, index⟩ := x
    rw [findPayload] at h
    dsimp only [Option.any_some] at h
    split_ifs at h with hother
    · exact ih hv h
    · have hvout : output.number index = vout := by simpa using hother
      split at h
      · exact ih hv h
      · split_ifs at h
        · exact (Prod.mk.inj (Option.some.inj h)).2 ▸ hvout
        · refine ih (fun x hx => ?_) h
          cases firstValid with
          | none => exact Option.some.inj hx ▸ hvout
          | some y => exact hv x hx

section Choice

variable [Ed25519] {n : BitcoinCore} {s : Store} {batch : Batch}

namespace Service

omit [Ed25519] in
/-- `verified` of what the verification returns. -/
def Verification.verified : Verification → Bool
  | .noPayload _ => false
  | .checked _ _ _ _ _ _ _ status => decide (status = .confirmed)

def anchorsOf (s : Store) (batch : Batch) : List Anchor :=
  s.anchors.rows.filter (·.batchId = batch.batchId)

/-- A row of the batch has the point of an output that commits to the batch. -/
def SomePublished (n : BitcoinCore) (s : Store) (batch : Batch) : Prop :=
  ∃ a ∈ s.anchors, a.batchId = batch.batchId ∧
    n.chain.Publishes a.txid a.vout batch.payloadHex

/-- The transaction of the newest row commits to the batch at the output that the first row with
this transaction names, the node finds it there, and the payload is in lower case. -/
def ChoicePublished (n : BitcoinCore) (s : Store) (batch : Batch) : Prop :=
  ∃ last first, (anchorsOf s batch).getLast? = some last ∧
    (anchorsOf s batch).find? (·.txid = last.txid) = some first ∧
    n.chain.Publishes last.txid first.vout batch.payloadHex ∧
    n.Finds last.txid first.blockHash ∧ ∃ raw, batch.payloadHex = hex raw

end Service

namespace BitcoinCore

def steady (n : BitcoinCore) : Handler VerifyCall Exc Store :=
  verifying n.chain.truthful n.truthful

theorem obeys_steady (n : BitcoinCore) : Obeys n.oracle n.steady := by
  intro β call s
  have hnode : Obeys n.chain.oracle (HistoryAnchor.environment n.chain.truthful) :=
    n.chain.obeys_oracle fun _ _ _ => rfl
  cases call with
  | node c => exact hnode c s
  | tx c => exact ⟨rfl, rfl⟩

end BitcoinCore

section Calls

variable {txid : PyStr} {hint : Option PyStr}

theorem lookup_alone {Q : Py TxInfo → Store → Prop} (h : Q (n.lookup txid hint) s) :
    (BitcoinRPC.transaction txid hint).Alone n.steady (fun _ => True) Q s := by
  simp only [BitcoinRPC.transaction, bind_eq, Alone, ensures_bind, ensures_outcome]
  apply tx_alone.mpr
  rintro x rfl
  rw [BitcoinCore.lookup] at h
  change Prog.Ensures _ _ _ (match n.gettransaction txid with
    | .ok info => _
    | .error e => _) _ _
  cases hx : n.gettransaction txid with
  | ok info =>
    rw [hx] at h
    exact h
  | error e =>
    rw [hx] at h
    dsimp only at h ⊢
    split_ifs at h ⊢ with he
    · apply tx_alone.mpr
      rintro x rfl
      exact h
    · exact h

theorem steady_network_alone {Q : Py PyStr → Store → Prop} (h : Q (.ok n.chain.networkName) s) :
    BitcoinRPC.network.Alone (environment n.chain.truthful) (fun _ => True) Q s := by
  simp only [BitcoinRPC.network, bind_eq, Alone, ensures_bind, rpc_ensures, forall_eq', true_and]
  rintro x rfl
  exact h

theorem transactionContext_steady {info : TxInfo} {Q : Py (Option BitcoinRPC.BlockStatus) → Store → Prop}
    (h : Q (match info.blockhash.filter (· ≠ []) with
      | none => .ok none
      | some x => (n.getblockheader x).map fun header => some (.of x header)) s) :
    (BitcoinRPC.transactionContext info).Alone n.steady (fun _ => True) Q s := by
  unfold BitcoinRPC.transactionContext
  cases hx : info.blockhash.filter (· ≠ []) with
  | none =>
    rw [hx] at h
    exact h
  | some x =>
    rw [hx] at h
    dsimp only at h
    simp only [BitcoinRPC.blockContext, bind_eq, pure_eq, Alone, ensures_bind]
    apply tx_alone.mpr
    rintro y rfl
    change Prog.thenOk _ _ (n.getblockheader x) s
    cases hy : n.getblockheader x with
    | ok header =>
      rw [hy] at h
      exact h
    | error e =>
      rw [hy] at h
      exact h

end Calls

/-- The transaction has confirmations, and the header of its block is active. -/
def BitcoinCore.Confirms (n : BitcoinCore) (info : TxInfo) : Prop :=
  0 < info.confirmations.getD 0 ∧ ∃ x header, info.blockhash = some x ∧ x ≠ [] ∧
    n.getblockheader x = .ok header ∧ 0 ≤ header.confirmations.getD (-1) ∧
    sqliteInt (header.height.getD 0)

def Verifies (r : Py Service.Verification) : Prop := ∃ v, r = .ok v ∧ v.verified = true

namespace Service

omit [Ed25519] in
theorem verifiedStatus_confirmed_iff {confirmations : ℤ}
    {context : Option BitcoinRPC.BlockStatus} :
    verifiedStatus true confirmations context = .confirmed ↔
      0 < confirmations ∧ ∃ status, context = some status ∧ status.inActiveChain = true := by
  constructor
  · exact verifiedStatus_confirmed
  · rintro ⟨hc, status, rfl, hactive⟩
    rw [verifiedStatus, if_pos ⟨rfl, hc, hactive⟩]

theorem addAnchor_updated {info : TxInfo} {row : Anchor} {context : Option BitcoinRPC.BlockStatus}
    (hfits : row.Fits) (hbatch : ∃ b ∈ s.batches, b.batchId = row.batchId) :
    (∃ created, (s.addAnchor (updatedAnchor row info true context)).1 = .ok created) ↔
      sqliteInt ((context.bind (·.blockHeight)).getD 0) := by
  obtain ⟨hvout, hat, -⟩ := hfits
  rw [Store.addAnchor]
  split_ifs with h hb
  · exact iff_of_true ⟨_, rfl⟩ h.2.2
  · exact absurd hbatch hb
  · refine iff_of_false ?_ fun hheight => h ⟨hvout, hat, hheight⟩
    rintro ⟨_, he⟩
    cases he

theorem recordVerification_steady {txid : PyStr} {info : TxInfo} {vout : ℕ} {row : Anchor}
    (hb : batch ∈ s.batches) (hfits : s.AnchorsFit)
    (hrow : (anchorsOf s batch).find? (fun a => a.txid = txid ∧ a.vout = vout) = some row) :
    (recordVerification (anchorsOf s batch) batch txid info batch.payloadHex vout).Alone n.steady
      (fun _ => True) (fun r _ => Verifies r ↔ n.Confirms info) s := by
  obtain ⟨hanchor, hid⟩ := List.mem_filter.mp (List.mem_of_find?_eq_some hrow)
  have hbatch : ∃ b ∈ s.batches, b.batchId = row.batchId := ⟨batch, hb, (of_decide_eq_true hid).symm⟩
  have hfound : anchorFound (anchorsOf s batch) batch.batchId (txid, vout) = ret row := by
    unfold anchorFound
    rw [hrow]
    rfl
  have hstored : ∀ context : Option BitcoinRPC.BlockStatus,
      ((node (storage (.addAnchor (updatedAnchor row info true context)))).bind fun _ =>
        ret (Verification.checked true (info.confirmations.getD 0) txid vout batch.payloadHex
          batch.payloadHex context (updatedAnchor row info true context).status)).Alone n.steady
      (fun _ => True) (fun r _ => Verifies r ↔ (0 < info.confirmations.getD 0 ∧
        ∃ status, context = some status ∧ status.inActiveChain = true) ∧
          sqliteInt ((context.bind (·.blockHeight)).getD 0)) s := by
    intro context
    have hadd := @addAnchor_updated _ s info row context (hfits row hanchor) hbatch
    simp only [Alone, BitcoinCore.steady, ensures_bind, node_ensures, storage_ensures, forall_eq',
      Store.run, true_and]
    rw [← hadd, ← verifiedStatus_confirmed_iff]
    cases (s.addAnchor (updatedAnchor row info true context)).1 with
    | error e =>
      apply iff_of_false
      · rintro ⟨_, h, -⟩
        cases h
      · rintro ⟨-, _, h⟩
        cases h
    | ok created =>
      rw [and_iff_left ⟨created, rfl⟩]
      constructor
      · rintro ⟨v, hv, hverified⟩
        obtain rfl := Except.ok.inj hv
        exact of_decide_eq_true hverified
      · exact fun h => ⟨_, rfl, decide_eq_true h⟩
  simp only [recordVerification, hfound, bind_eq, pure_eq, Alone, ensures_bind]
  apply transactionContext_steady
  cases hblock : info.blockhash.filter (· ≠ []) with
  | none =>
    apply (hstored none).post
    intro r _ hr
    rw [hr]
    apply iff_of_false
    · rintro ⟨⟨-, _, h, -⟩, -⟩
      cases h
    · rintro ⟨-, x, -, hx, hne, -⟩
      rw [hx, Option.filter_some, if_pos (decide_eq_true hne)] at hblock
      cases hblock
  | some x =>
    obtain ⟨hx, hne⟩ := Option.filter_eq_some_iff.mp hblock
    dsimp only
    cases hheader : n.getblockheader x with
    | error e =>
      apply iff_of_false
      · rintro ⟨_, h, -⟩
        cases h
      · rintro ⟨-, x', header, hx', -, hok, -⟩
        obtain rfl := Option.some.inj (hx.symm.trans hx')
        cases hheader.symm.trans hok
    | ok header =>
      apply (hstored (some (.of x header))).post
      intro r _ hr
      rw [hr]
      constructor
      · rintro ⟨⟨hc, status, he, hactive⟩, hheight⟩
        obtain rfl := Option.some.inj he
        exact ⟨hc, x, header, hx, of_decide_eq_true hne, hheader, of_decide_eq_true hactive, hheight⟩
      · rintro ⟨hc, x', header', hx', -, hok, hactive, hheight⟩
        obtain rfl := Option.some.inj (hx.symm.trans hx')
        obtain rfl := Except.ok.inj (hheader.symm.trans hok)
        exact ⟨⟨hc, _, rfl, decide_eq_true hactive⟩, hheight⟩

omit [Ed25519] in
/-- What the node describes as confirmed, with a payload at the number that was asked for, is
published there; and so the other way round. -/
theorem confirms_iff (hf : n.Faithful) {txid payloadHex : PyStr} {hint : Option PyStr} {vout : ℕ}
    {payload : Bitcoin.AnchorPayload} (hd : Bitcoin.decodeAnchorPayload payloadHex = .ok payload) :
    (∃ info, n.lookup txid hint = .ok info ∧
      BitcoinRPC.findPayload (some payloadHex) (some vout) info.vout.zipIdx none =
        some (payloadHex, vout) ∧ n.Confirms info) ↔
      n.chain.Publishes txid vout payloadHex ∧ n.Finds txid hint ∧ ∃ raw, payloadHex = hex raw := by
  constructor
  · rintro ⟨info, hlookup, hfound, hc, -⟩
    obtain ⟨-, out, i, p, hout, hacc, hnumber⟩ := BitcoinRPC.findPayload_some hfound
    have hdescribe : TxAnswers.Describe n.flaky txid info := by
      rw [BitcoinCore.lookup] at hlookup
      split at hlookup
      · rename_i info' hok
        exact Or.inl (Or.inl (Except.ok.inj hlookup ▸ hok.symm))
      · split_ifs at hlookup
        exact Or.inr ⟨hint.filter (· ≠ []), Or.inl hlookup.symm⟩
    obtain ⟨hextract, -⟩ := acceptedPayload_some hacc
    exact ⟨⟨info.vout, BitcoinCore.mines_of_confirmed hdescribe hc, out, i, hout, hnumber.symm,
      TxOut.pays_of_accepted hacc⟩, BitcoinCore.finds_of_lookup hlookup hc,
      Bitcoin.exists_hex_of_extract hextract⟩
  · rintro ⟨⟨outs, hmines, out, i, hout, hnumber, hpays⟩, hfinds, raw, rfl⟩
    obtain ⟨height, x, b, hat, hlookup⟩ := hf.lookup_mined hmines hfinds
    obtain ⟨header, hheader, hheight, hactive⟩ := hf.header_active hat
    have hacc := TxOut.accepted_of_pays hpays hd
    refine ⟨_, hlookup, BitcoinRPC.findPayload_eq_some ⟨out, i, hout, hacc, hnumber⟩,
      BitcoinCore.depth_pos hat rfl, x, header, rfl, ?_, hheader, hactive, ?_⟩
    · rintro rfl
      obtain ⟨raw', hl, he⟩ := hf.hashes _ (Chain.mem_of_at? hat)
      have hlen := congrArg List.length he
      rw [length_hex, hl] at hlen
      cases hlen
    · have htip := (Chain.at?_bounds hat).2
      have hmax := hf.height
      rw [Chain.tip] at htip
      rw [hheight, Option.getD_some]
      constructor
      · omega
      · omega

/-- The verification reports the truth about the transaction that it has chosen, and nothing about
the others. -/
theorem verifies_iff (hf : n.Faithful) (hb : batch ∈ s.batches)
    (hnet : n.chain.networkName = batch.network) (hfits : s.AnchorsFit) :
    (verifyBitcoinAnchor batch.batchId none).Alone n.steady (fun _ => True)
      (fun r _ => Verifies r ↔ ChoicePublished n s batch) s := by
  have hbatch : s.batches.find? batch.batchId = some batch := Table.find?_eq_some.mpr ⟨hb, rfl⟩
  obtain ⟨payload, hd, -⟩ := batch.decode
  have herror : ∀ e, ¬Verifies (.error e) := by
    rintro e ⟨_, h, -⟩
    cases h
  simp only [verifyBitcoinAnchor, bind_eq, Alone, BitcoinCore.steady, ensures_bind, node_ensures,
    storage_ensures, forall_eq', Store.run, hbatch, thenOk_ok, true_and, ensures_ofExcept]
  change Prog.thenOk _ _ (chosenTxid (anchorsOf s batch) none) s
  rw [chosenTxid]
  cases hlast : (anchorsOf s batch).getLast? with
  | none =>
    apply iff_of_false (herror _)
    rintro ⟨last, -, h, -⟩
    cases hlast.symm.trans h
  | some last =>
    simp only [thenOk_ok, ensures_bind, node_ensures]
    apply steady_network_alone
    simp only [thenOk_ok, ensures_bind, node_ensures, check, require, ensures_ofExcept, hnet,
      if_true]
    obtain ⟨first, hfirst⟩ : ∃ first, (anchorsOf s batch).find? (·.txid = last.txid) = some first := by
      apply Option.isSome_iff_exists.mp
      rw [List.find?_isSome]
      exact ⟨last, List.mem_of_getLast? hlast, decide_eq_true rfl⟩
    have hchoice : ChoicePublished n s batch ↔
        ∃ info, n.lookup last.txid first.blockHash = .ok info ∧
          BitcoinRPC.findPayload (some batch.payloadHex) (some first.vout) info.vout.zipIdx none =
            some (batch.payloadHex, first.vout) ∧ n.Confirms info := by
      rw [confirms_iff hf hd]
      constructor
      · rintro ⟨last', first', hl, hf', h⟩
        obtain rfl := Option.some.inj (hlast.symm.trans hl)
        obtain rfl := Option.some.inj (hfirst.symm.trans hf')
        exact h
      · exact fun h => ⟨last, first, hlast, hfirst, h⟩
    have hrow : (anchorsOf s batch).find? (fun a => a.txid = last.txid ∧ a.vout = first.vout) =
        some first := by
      obtain ⟨htxid, before, after, hsplit, hbefore⟩ := List.find?_eq_some_iff_append.mp hfirst
      apply List.find?_eq_some_iff_append.mpr
      refine ⟨by simpa using htxid, before, after, hsplit, fun a ha => ?_⟩
      have hne := hbefore a ha
      simp only [Bool.not_eq_true', decide_eq_false_iff_not] at hne ⊢
      exact fun h => hne h.1
    change Prog.Ensures n.steady _ _ (BitcoinRPC.transaction last.txid
      (((anchorsOf s batch).find? (·.txid = last.txid)).bind (·.blockHash))) _ s
    rw [hfirst]
    apply lookup_alone
    change Prog.thenOk _ _ (n.lookup last.txid first.blockHash) s
    cases hlookup : n.lookup last.txid first.blockHash with
    | error e =>
      apply iff_of_false (herror e)
      rw [hchoice, hlookup]
      rintro ⟨_, h, -⟩
      cases h
    | ok info =>
      rw [thenOk_ok, show s.anchors.rows.filter (·.batchId = batch.batchId) = anchorsOf s batch
        from rfl, hfirst, Option.map_some]
      have hinfo : ∀ {info'}, n.lookup last.txid first.blockHash = .ok info' → info = info' :=
        fun h => Except.ok.inj (hlookup.symm.trans h)
      cases hfound : BitcoinRPC.findPayload (some batch.payloadHex) (some first.vout)
          info.vout.zipIdx none with
      | none =>
        apply iff_of_false
        · rintro ⟨v, hv, hverified⟩
          obtain rfl := Except.ok.inj hv
          cases hverified
        · rw [hchoice]
          rintro ⟨info', h, h', -⟩
          obtain rfl := hinfo h
          cases hfound.symm.trans h'
      | some found =>
        obtain ⟨payloadHex, vout⟩ := found
        obtain ⟨rfl, -⟩ := BitcoinRPC.findPayload_some hfound
        obtain rfl := BitcoinRPC.findPayload_vout (fun _ h => absurd h (Option.not_mem_none _)) hfound
        apply (recordVerification_steady hb hfits hrow).post
        intro r _ hr
        rw [hr, hchoice]
        constructor
        · exact fun h => ⟨info, hlookup, hfound, h⟩
        · rintro ⟨info', h, -, hc⟩
          exact hinfo h ▸ hc

/-- The verification of a batch with a published anchor succeeds exactly if the transaction that it
chooses is published where it looks. -/
theorem verifies_published_iff (hf : n.Faithful) (hb : batch ∈ s.batches)
    (hnet : n.chain.networkName = batch.network) (hfits : s.AnchorsFit) :
    (∃ r s', (verifyBitcoinAnchor batch.batchId none).Exec n.steady s r s') ∧
    ∀ r s', (verifyBitcoinAnchor batch.batchId none).Exec n.steady s r s' →
      ((SomePublished n s batch → Verifies r) ↔
        (SomePublished n s batch → ChoicePublished n s batch)) := by
  constructor
  · exact ⟨_, _, exec_eval n.obeys_steady _ s⟩
  · intro r s' hx
    rw [Ensures.exec (fun _ => rfl) (verifies_iff hf hb hnet hfits) hx]

end Service

end Choice

section Witness

attribute [local instance] conformanceKeys

theorem sampleCore_faithful : sampleCore.Faithful where
  hashes b hb := by
    obtain rfl := List.mem_singleton.mp hb
    exact ⟨List.replicate 31 0 ++ [0xAA], by decide, by decide⟩
  txids b hb t ht id hid := by
    obtain rfl := List.mem_singleton.mp hb
    obtain rfl := List.mem_singleton.mp ht
    obtain rfl := Option.some.inj hid
    exact ⟨List.replicate 30 0x22 ++ [0x2A, 0xB2], by decide, by decide⟩
  height := by decide
  waiting := nofun

/-- A reference of a peer to an output for the batch of the conformance vector. -/
def peerReference (txid : PyStr) (vout : ℤ) : Json :=
  .obj [
    ("txid", .str txid), ("vout", .int vout),
    ("batch_id", .str "5ca8c08e0aefbc9ecced864f9499b9f7c2b8af326257f6de2f9dd5488ba356fd"),
    ("network", .str "signet"), ("status", .str "confirmed"), ("anchored_at", .int 1),
    ("block_hash", .null), ("block_height", .null)]

def publishedTxid : PyStr := "2222222222222222222222222222222222222222222222222222222222222ab2"

def unknownTxid : PyStr := "3333333333333333333333333333333333333333333333333333333333333333"

/-- The store after the import of a reference to the published output. -/
def publishedStore : Store :=
  conformanceStore.upsertAnchor (Service.localReference (peerReference publishedTxid 1) none)
    lateReference_batch

/-- The store after the import of a reference to nothing as well. -/
def crowdedStore : Store :=
  publishedStore.upsertAnchor (Service.localReference (peerReference unknownTxid 0) none)
    lateReference_batch

theorem GenuineRuns.peerReference {s : Store} {txid : PyStr} {vout : ℤ}
    (hs : GenuineRuns (fun _ _ => True) s) (hb : s.batches = conformanceStore.batches)
    (hv : Anchors.validateAnchorReference (peerReference txid vout) = .ok ())
    (hfits : (Service.localReference (HistoryAnchor.peerReference txid vout) none).Fits)
    (hfree : s.anchors.find? (refPoint (HistoryAnchor.peerReference txid vout)) = none)
    (h : ∃ b ∈ s.batches, b.batchId = lateReference.text "batch_id") :
    GenuineRuns (fun _ _ => True)
      (s.upsertAnchor (Service.localReference (HistoryAnchor.peerReference txid vout) none) h) := by
  have haccepts : s.Accepts (HistoryAnchor.peerReference txid vout) := by
    constructor
    · intro b hmem _
      rw [hb] at hmem
      rw [List.mem_singleton.mp (show b ∈ [storedBatch] from hmem)]
      rfl
    · rw [hfree]
      nofun
  have hrun := hs.eval (.importAnchorReference (HistoryAnchor.peerReference txid vout)) trivial
  rwa [eval_importAnchorReference hv hfits h haccepts hfree] at hrun

theorem peerReference_checked :
    (Anchors.validateAnchorReference (peerReference publishedTxid 1) = .ok () ∧
      (Service.localReference (peerReference publishedTxid 1) none).Fits) ∧
    Anchors.validateAnchorReference (peerReference unknownTxid 0) = .ok () ∧
      (Service.localReference (peerReference unknownTxid 0) none).Fits := by
  decide +kernel

theorem publishedTx_checked : minedTx.Named publishedTxid ∧ ¬minedTx.Named unknownTxid ∧
    (acceptedPayload ("6a26" ++ samplePayload)).map Prod.fst = some storedBatch.payloadHex ∧
    sampleCore.chain.networkName = storedBatch.network := by
  decide +kernel

theorem genuineRuns_publishedStore : GenuineRuns (fun _ _ => True) publishedStore :=
  (genuineRuns_conformanceStore trivial trivial).peerReference rfl peerReference_checked.1.1
    peerReference_checked.1.2 rfl _

theorem rows_publishedStore : publishedStore.anchors.rows =
    [Service.localReference (peerReference publishedTxid 1) none] := rfl

theorem rows_crowdedStore : crowdedStore.anchors.rows =
    [Service.localReference (peerReference publishedTxid 1) none,
      Service.localReference (peerReference unknownTxid 0) none] := by
  decide +kernel

theorem genuineRuns_crowdedStore : GenuineRuns (fun _ _ => True) crowdedStore := by
  apply genuineRuns_publishedStore.peerReference rfl peerReference_checked.2.1
    peerReference_checked.2.2
  rw [Table.find?_eq_none]
  intro a ha
  rw [Table.mem_def, rows_publishedStore] at ha
  rw [List.mem_singleton.mp ha]
  decide

theorem publishedTxid_published :
    sampleCore.chain.Publishes publishedTxid 1 storedBatch.payloadHex := by
  obtain ⟨hnamed, -, haccepted, -⟩ := publishedTx_checked
  obtain ⟨⟨payloadHex, payload⟩, hacc, hpayload⟩ := Option.map_eq_some_iff.mp haccepted
  exact ⟨minedTx.vout, ⟨0, _, _, rfl, minedTx, List.mem_singleton_self _, hnamed, rfl⟩,
    ⟨some 1, "6a26" ++ samplePayload⟩, 1, List.mem_cons_of_mem _ (List.mem_singleton_self _), rfl,
    hpayload ▸ TxOut.pays_of_accepted hacc⟩

theorem unknownTxid_unpublished (vout : ℕ) (payloadHex : PyStr) :
    ¬sampleCore.chain.Publishes unknownTxid vout payloadHex := by
  rintro ⟨outs, ⟨h, x, b, hat, t, ht, hn, -⟩, -⟩
  obtain ⟨rfl, rfl⟩ := Prod.mk.inj (List.mem_singleton.mp (Chain.mem_of_at? hat))
  obtain rfl := List.mem_singleton.mp ht
  exact publishedTx_checked.2.1 hn

theorem publishedStore_choice : Service.ChoicePublished sampleCore publishedStore storedBatch :=
  ⟨_, _, rfl, rfl, publishedTxid_published, Or.inl ⟨_, List.mem_singleton_self _, by decide +kernel⟩,
    (fromHex storedBatch.payloadHex).getD [], by decide +kernel⟩

theorem crowdedStore_choice : ¬Service.ChoicePublished sampleCore crowdedStore storedBatch := by
  rintro ⟨last, first, hlast, -, hpublished, -⟩
  rw [Service.anchorsOf, rows_crowdedStore] at hlast
  have htxid : last.txid = unknownTxid := by
    rw [← Option.some.inj hlast]
    rfl
  rw [htxid] at hpublished
  exact unknownTxid_unpublished _ _ hpublished

theorem publishedStore_fits : publishedStore.AnchorsFit := by
  intro a ha
  rw [Table.mem_def, rows_publishedStore] at ha
  rw [List.mem_singleton.mp ha]
  exact peerReference_checked.1.2

theorem crowdedStore_fits : crowdedStore.AnchorsFit := by
  intro a ha
  rw [Table.mem_def, rows_crowdedStore] at ha
  simp only [List.mem_cons, List.not_mem_nil, or_false] at ha
  rcases ha with rfl | rfl
  · exact peerReference_checked.1.2
  · exact peerReference_checked.2.2

theorem sampleCore_network : sampleCore.chain.networkName = storedBatch.network :=
  publishedTx_checked.2.2.2

theorem verifies_published_iff_sample :
    (∃ r s', (Service.verifyBitcoinAnchor storedBatch.batchId none).Exec sampleCore.steady
      publishedStore r s') ∧
    ∀ r s', (Service.verifyBitcoinAnchor storedBatch.batchId none).Exec sampleCore.steady
      publishedStore r s' → ((Service.SomePublished sampleCore publishedStore storedBatch →
        Verifies r) ↔ (Service.SomePublished sampleCore publishedStore storedBatch →
          Service.ChoicePublished sampleCore publishedStore storedBatch)) :=
  Service.verifies_published_iff sampleCore_faithful List.mem_cons_self sampleCore_network
    publishedStore_fits

/-- A peer's reference to nothing turns the verification from success to failure, although the
chain still has the batch at the point of the older row. -/
theorem unknown_reference_hides_anchor :
    GenuineRuns (fun _ _ => True) crowdedStore ∧ sampleCore.Faithful ∧
    sampleCore.chain.networkName = storedBatch.network ∧ storedBatch ∈ crowdedStore.batches ∧
    Service.SomePublished sampleCore crowdedStore storedBatch ∧
    (∀ r s', (Service.verifyBitcoinAnchor storedBatch.batchId none).Exec sampleCore.steady
      publishedStore r s' → Verifies r) ∧
    ∀ r s', (Service.verifyBitcoinAnchor storedBatch.batchId none).Exec sampleCore.steady
      crowdedStore r s' → ¬Verifies r := by
  have hbatch : storedBatch ∈ conformanceStore.batches := List.mem_cons_self
  refine ⟨genuineRuns_crowdedStore, sampleCore_faithful, sampleCore_network, hbatch, ?_, ?_, ?_⟩
  · refine ⟨Service.localReference (peerReference publishedTxid 1) none, ?_, rfl,
      publishedTxid_published⟩
    rw [Table.mem_def, rows_crowdedStore]
    exact List.mem_cons_self
  · intro r s' hx
    have hbatch : storedBatch ∈ publishedStore.batches := hbatch
    have hiff := Ensures.exec (fun _ => rfl) (Service.verifies_iff sampleCore_faithful hbatch
      sampleCore_network publishedStore_fits) hx
    exact hiff.mpr publishedStore_choice
  · intro r s' hx hverifies
    have hbatch : storedBatch ∈ crowdedStore.batches := hbatch
    have hiff := Ensures.exec (fun _ => rfl) (Service.verifies_iff sampleCore_faithful hbatch
      sampleCore_network crowdedStore_fits) hx
    exact crowdedStore_choice (hiff.mp hverifies)

end Witness

end HistoryAnchor

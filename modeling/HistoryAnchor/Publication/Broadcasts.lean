import HistoryAnchor.Effects.Pools
import HistoryAnchor.Node.Reached
import HistoryAnchor.Publication.Quiet

/-! # What a coordinator sends

Every transaction that leaves a coordinator has passed all checks and commits to exactly
one output's worth of a batch that is stored. This holds at every moment, whatever other
programs run beside and whenever any of them is killed.
-/

namespace HistoryAnchor

open Python Effects Prog Tables

section Broadcasts

variable [Ed25519] {α β : Type} {decode : PyStr → Option RawTx} {rpcAnswers : Answers}
  {R G : Store × Ledger → Store × Ledger → Prop} {P : Store × Ledger → Prop}

structure Grows (t t' : Store × Ledger) : Prop where
  batches : ∀ b ∈ t.1.batches, b ∈ t'.1.batches
  allowed : t.2.allowed ⊆ t'.2.allowed
  sent : t.2.sent ⊆ t'.2.sent

theorem Grows.refl (t : Store × Ledger) : Grows t t := ⟨fun _ => id, List.Subset.refl _, List.Subset.refl _⟩

theorem Grows.trans {t t' t'' : Store × Ledger} (h : Grows t t') (h' : Grows t' t'') :
    Grows t t'' :=
  ⟨fun b hb => h'.batches b (h.batches b hb), List.Subset.trans h.allowed h'.allowed,
    List.Subset.trans h.sent h'.sent⟩

structure Terms where
  network : PyStr
  allowMainnet : Bool
  maxAnchorFee : ℤ

def Answers.On (rpcAnswers : Answers) (network : PyStr) : Prop :=
  ∀ s chain, rpcAnswers s .getblockchaininfo (.ok chain) →
    (if chain = "main" then ascii "mainnet" else chain) = network

/-- A raw transaction pays for a batch as the terms allow: it is complete, its fee is within the
bound, the mempool would take it, and exactly one of its outputs, the one with the number, commits to
the stored batch. -/
structure Terms.Pays (k : Terms) (decode : PyStr → Option RawTx) (t : Store × Ledger) (b : Batch)
    (raw : PyStr) (tx : RawTx) (n : ℕ) : Prop where
  stored : b ∈ t.1.batches
  network : b.network = k.network
  enabled : k.network = "mainnet" → k.allowMainnet = true
  read : decode raw = some tx
  complete : tx.complete = true
  fee_pos : 0 < tx.fee
  fee_le : tx.fee ≤ k.maxAnchorFee
  allowed : raw ∈ t.2.allowed
  vout : matchingVouts b.payloadHex tx.vout = [n]

theorem Terms.Pays.grows {k : Terms} {t t' : Store × Ledger} {b : Batch} {raw : PyStr} {tx : RawTx}
    {n : ℕ} (h : k.Pays decode t b raw tx n) (hg : Grows t t') : k.Pays decode t' b raw tx n :=
  { h with stored := hg.batches b h.stored, allowed := hg.allowed h.allowed }

/-- The predicate holds until something is sent: the environment keeps it, and so does every call
that leaves the store and what was sent alone. -/
structure Calm (R G : Store × Ledger → Store × Ledger → Prop) (P : Store × Ledger → Prop) : Prop where
  rely : ∀ t t', R t t' → P t → P t'
  quiet : ∀ t t', P t → t'.1 = t.1 → t'.2.sent = t.2.sent → t.2.allowed ⊆ t'.2.allowed →
    G t t' ∧ P t'

theorem Calm.and {A : Store × Ledger → Prop} (h : Calm R G P) (hR : ∀ t t', R t t' → Grows t t')
    (hA : ∀ t t', Grows t t' → A t → A t') : Calm R G fun t => P t ∧ A t where
  rely t t' hr ht := ⟨h.rely t t' hr ht.1, hA t t' (hR t t' hr) ht.2⟩
  quiet t t' ht hs hsent hallowed := by
    obtain ⟨hG, hP⟩ := h.quiet t t' ht.1 hs hsent hallowed
    refine ⟨hG, hP, hA t t' ⟨fun b hb => ?_, hallowed, ?_⟩ ht.2⟩
    · rwa [hs]
    · rw [hsent]
      exact List.Subset.refl _

namespace WalletCall

def Quiet : {β : Type} → WalletCall β → Prop
  | _, sendrawtransaction _ => False
  | _, _ => True

omit [Ed25519] in
theorem Moves.quiet {c : WalletCall β} (hc : c.Quiet) {x : Py β} {l l' : Ledger}
    (h : c.Moves x l l') : l'.sent = l.sent ∧ l.allowed ⊆ l'.allowed := by
  have hsame : l' = l → l'.sent = l.sent ∧ l.allowed ⊆ l'.allowed := by
    rintro rfl
    exact ⟨rfl, List.Subset.refl _⟩
  cases c with
  | sendrawtransaction raw => exact hc.elim
  | testmempoolaccept raw =>
    rcases x with e | ⟨_ | ⟨acceptance, rest⟩⟩
    · exact hsame h
    · exact hsame h
    · rw [show l' = _ from h]
      split_ifs
      · exact ⟨rfl, List.subset_cons_self _ _⟩
      · exact ⟨rfl, List.Subset.refl _⟩
  | createrawtransaction data => exact hsame h
  | fundrawtransaction raw => exact hsame h
  | signrawtransactionwithwallet raw => exact hsame h
  | decoderawtransaction raw => exact hsame h

end WalletCall

theorem Calm.wallet_ensures (h : Calm R G P) {c : WalletCall β} (hc : c.Quiet) {t : Store × Ledger}
    {Q : Py β → Store × Ledger → Prop} (ht : P t)
    (hQ : ∀ x l t', P t' → c.Reports decode x → c.Moves x l t'.2 → Q x t') :
    (wallet c).Ensures (coordinating rpcAnswers decode) R G Q t := by
  rw [wallet, ensures_perform]
  rintro t₁ hR x t' ⟨hx, hs, hm⟩
  obtain ⟨hsent, hallowed⟩ := WalletCall.Moves.quiet hc hm
  obtain ⟨hG, hP⟩ := h.quiet t₁ t' (h.rely t t₁ hR ht) hs hsent hallowed
  exact ⟨hG, hQ x _ t' hP hx hm⟩

theorem Calm.node_ensures (h : Calm R G P) {c : NodeCall β} {t : Store × Ledger}
    {Q : Py β → Store × Ledger → Prop} (ht : P t)
    (hc : ∀ s x s', environment rpcAnswers c s x s' → s' = s)
    (hQ : ∀ x t', P t' → environment rpcAnswers c t'.1 x t'.1 → Q x t') :
    (Prog.perform (.node c) : Coordinator β).Ensures (coordinating rpcAnswers decode) R G Q t := by
  rw [ensures_perform]
  rintro t₁ hR x t' ⟨hx, hl⟩
  have hs := hc _ _ _ hx
  obtain ⟨hG, hP⟩ := h.quiet t₁ t' (h.rely t t₁ hR ht) hs (by rw [hl]) (by rw [hl]; exact List.Subset.refl _)
  exact ⟨hG, hQ x t' hP (by rwa [← hs] at hx)⟩

theorem broadcastOpReturn_ensures {maxAnchorFee : ℤ} {payloadHex : PyStr} {t : Store × Ledger}
    {Q : Py Broadcast → Store × Ledger → Prop} (hP : Calm R G P)
    (hR : ∀ t t', R t t' → Grows t t') (hfail : ∀ e t, P t → Q (.error e) t)
    (hsend : ∀ t raw tx n, P t → decode raw = some tx → tx.complete = true → 0 < tx.fee →
      tx.fee ≤ maxAnchorFee → raw ∈ t.2.allowed → matchingVouts payloadHex tx.vout = [n] →
      G t (t.1, t.2.send raw) ∧ Q (.ok ⟨tx.txid, n, tx.fee, raw⟩) (t.1, t.2.send raw) ∧
        ∀ e, Q (.error e) (t.1, t.2.send raw))
    (ht : P t) :
    (BitcoinRPC.broadcastOpReturn maxAnchorFee payloadHex).Ensures (coordinating rpcAnswers decode)
      R G Q t := by
  simp only [BitcoinRPC.broadcastOpReturn, bind_eq, ensures_bind]
  refine hP.wallet_ensures (by trivial) ht fun raw _ t₁ h₁ _ _ => ?_
  rcases raw with e | raw
  · exact hfail e t₁ h₁
  simp only [thenOk_ok, ensures_bind]
  refine hP.wallet_ensures (by trivial) h₁ fun funded _ t₂ h₂ hfunded _ => ?_
  rcases funded with e | funded
  · exact hfail e t₂ h₂
  obtain ⟨tx, htx, hreported⟩ := hfunded funded rfl
  simp only [thenOk_ok]
  split_ifs with hfee
  · exact hfail _ t₂ h₂
  push Not at hfee
  have hpaid : funded.fee.getD 0 = tx.fee := by
    cases hf : funded.fee with
    | none =>
      rw [hf] at hfee
      exact absurd hfee.1 (lt_irrefl _)
    | some fee => exact hreported fee hf
  rw [hpaid] at hfee ⊢
  simp only [ensures_bind]
  refine hP.wallet_ensures (by trivial) h₂ fun signed _ t₃ h₃ hsigned _ => ?_
  rcases signed with e | signed
  · exact hfail e t₃ h₃
  obtain ⟨tx₀, htx₀, tx', htx', hvout, hfee', hcomplete⟩ := hsigned signed rfl
  obtain rfl : tx₀ = tx := Option.some.inj (htx₀.symm.trans htx)
  simp only [thenOk_ok]
  split_ifs with hdone
  · exact hfail _ t₃ h₃
  have hsignedAll : tx'.complete = true := by simpa [hcomplete] using hdone
  simp only [ensures_bind]
  refine hP.wallet_ensures (by trivial) h₃ fun acceptance l t₄ h₄ _ hmoves => ?_
  rcases acceptance with e | acceptance
  · exact hfail e t₄ h₄
  simp only [thenOk_ok]
  split_ifs with hrefused
  · exact hfail _ t₄ h₄
  -- From here on the mempool has let the transaction pass.
  have hallowed : signed.hex ∈ t₄.2.allowed := by
    cases acceptance with
    | nil => exact absurd rfl hrefused
    | cons a rest =>
      have hyes : a.allowed = true := by simpa using hrefused
      rw [show t₄.2 = _ from hmoves, if_pos hyes]
      exact List.mem_cons_self
  have hP' : Calm R G fun t => P t ∧ signed.hex ∈ t.2.allowed :=
    hP.and hR fun _ _ hg h => hg.allowed h
  simp only [ensures_bind]
  refine hP'.wallet_ensures (by trivial) ⟨h₄, hallowed⟩ fun vout _ t₅ h₅ hdecoded _ => ?_
  rcases vout with e | vout
  · exact hfail e t₅ h₅.1
  obtain ⟨tx₁, htx₁, rfl⟩ := hdecoded vout rfl
  obtain rfl : tx₁ = tx' := Option.some.inj (htx₁.symm.trans htx')
  simp only [thenOk_ok]
  split
  · rename_i n hn
    rw [ensures_bind, wallet, ensures_perform]
    rintro t₆ hr x t₇ ⟨hx, hs, hm⟩
    obtain ⟨h₆, hin⟩ := hP'.rely t₅ t₆ hr h₅
    obtain ⟨hG, hok, herr⟩ := hsend t₆ signed.hex tx₁ n h₆ htx' hsignedAll (hfee'.symm ▸ hfee.1)
      (hfee'.symm ▸ hfee.2) hin hn
    rcases x with e | txid
    · rcases hm with hm | hm
      · obtain rfl : t₇ = t₆ := Prod.ext hs hm
        exact ⟨(hP.quiet t₇ t₇ h₆ rfl rfl (List.Subset.refl _)).1, hfail e t₇ h₆⟩
      · obtain rfl : t₇ = (t₆.1, t₆.2.send signed.hex) := Prod.ext hs hm
        exact ⟨hG, herr e⟩
    · obtain rfl : t₇ = (t₆.1, t₆.2.send signed.hex) := Prod.ext hs hm
      obtain ⟨tx₂, htx₂, rfl⟩ := hx txid rfl
      obtain rfl : tx₂ = tx₁ := Option.some.inj (htx₂.symm.trans htx')
      rw [← hfee']
      exact ⟨hG, hok⟩
  · exact hfail _ t₅ h₅.1

/-- An anchor is stored by a call that returns, and a call that fails stores nothing. -/
theorem Store.addAnchor_result (s : Store) (a : Anchor) :
    ((∃ e, (s.addAnchor a).1 = .error e) ∧ (s.addAnchor a).2 = s) ∨
      (∃ created, (s.addAnchor a).1 = .ok created) ∧ a ∈ (s.addAnchor a).2.anchors := by
  unfold Store.addAnchor
  split_ifs with hfit hbatch
  · refine Or.inr ⟨⟨_, rfl⟩, ?_⟩
    exact Table.mem_upsert_new (t := s.anchors)
  · exact Or.inl ⟨⟨_, rfl⟩, rfl⟩
  · exact Or.inl ⟨⟨_, rfl⟩, rfl⟩

namespace Service

def broadcastAnchor (batchId rpcNetwork : PyStr) (p : Point) (anchoredAt : ℤ) : Anchor where
  txid := p.1
  vout := p.2
  batchId := batchId
  network := rpcNetwork
  status := .broadcast
  anchoredAt := anchoredAt
  blockHash := none
  blockHeight := none

/-- What `anchor_batch` does after the broadcast. -/
def recordBroadcast (batchId rpcNetwork : PyStr) (p : Point) : Node Anchor := do
  let anchoredAt ← now
  let _ ← storage (.addAnchor (broadcastAnchor batchId rpcNetwork p anchoredAt))
  return broadcastAnchor batchId rpcNetwork p anchoredAt

theorem anchorBatch_ensures {k : Terms} {batchId : PyStr} {t : Store × Ledger}
    {Q : Py Anchor → Store × Ledger → Prop} (hP : Calm R G P)
    (hR : ∀ t t', R t t' → Grows t t') (hnetwork : rpcAnswers.On k.network)
    (hfail : ∀ e t, P t → Q (.error e) t)
    (hsend : ∀ t b raw tx n, P t → b.batchId = batchId → k.Pays decode t b raw tx n →
      G t (t.1, t.2.send raw) ∧ (∀ e, Q (.error e) (t.1, t.2.send raw)) ∧
        (coordinate k.maxAnchorFee (recordBroadcast batchId k.network (tx.txid, n))).Ensures
          (coordinating rpcAnswers decode) R G Q (t.1, t.2.send raw))
    (ht : P t) :
    (coordinate k.maxAnchorFee (anchorBatch batchId k.allowMainnet)).Ensures
      (coordinating rpcAnswers decode) R G Q t := by
  rw [anchorBatch, bind_eq, coordinate_bind, coordinate_storage, ensures_bind]
  refine hP.node_ensures ht (fun s x s' hx => congrArg Prod.snd hx) fun found t₁ h₁ hfound => ?_
  obtain rfl : found = .ok (t₁.1.batches.find? batchId) := congrArg Prod.fst hfound
  rw [thenOk_ok]
  cases hbatch : t₁.1.batches.find? batchId with
  | none => exact hfail _ t₁ h₁
  | some batch =>
  obtain ⟨hstored, hid⟩ := Table.find?_eq_some.mp hbatch
  dsimp only
  rw [bind_eq, coordinate_bind, coordinate_ofExcept, ensures_bind, ensures_ofExcept, batch.valid,
    thenOk_ok, bind_eq, coordinate_bind, check, coordinate_ofExcept, ensures_bind,
    ensures_ofExcept, require]
  split_ifs with henabled
  swap
  · exact hfail _ t₁ h₁
  have hP' : Calm R G fun t => P t ∧ batch ∈ t.1.batches :=
    hP.and hR fun _ _ hg h => hg.batches batch h
  rw [thenOk_ok, bind_eq, coordinate_bind, BitcoinRPC.network, bind_eq, coordinate_bind,
    coordinate_rpc, ensures_bind, ensures_bind]
  refine hP'.node_ensures ⟨h₁, hstored⟩ (fun s x s' hx => hx.2) fun chain t₂ h₂ hchain => ?_
  rcases chain with e | chain
  · exact hfail e t₂ h₂.1
  rw [thenOk_ok, pure_eq, coordinate_ret, ensures_ret, thenOk_ok, hnetwork _ _ hchain.1, bind_eq,
    coordinate_bind, check, coordinate_ofExcept, ensures_bind, ensures_ofExcept, require]
  split_ifs with hsame
  swap
  · exact hfail _ t₂ h₂.1
  rw [thenOk_ok, bind_eq, coordinate_bind, coordinate_broadcast, ensures_bind, ensures_bind]
  apply broadcastOpReturn_ensures hP' hR (fun e t h => hfail e t h.1) _ h₂
  rintro t raw tx n ⟨h, hin⟩ hread hcomplete hpos hle hallowed hvout
  obtain ⟨hG, herr, hrecord⟩ := hsend t batch raw tx n h hid
    ⟨hin, hsame.symm, fun hmain => henabled.resolve_left fun hne => hne (hsame.symm.trans hmain),
      hread, hcomplete, hpos, hle, hallowed, hvout⟩
  exact ⟨hG, hrecord, herr⟩

/-- What a call of `anchor_batch` may come to. -/
inductive Anchoring (k : Terms) (decode : PyStr → Option RawTx) (batchId : PyStr)
    (t : Store × Ledger) : Py Anchor → Store × Ledger → Prop
  /-- Nothing is sent. -/
  | refused {e : Exc} {t' : Store × Ledger} : t'.1 = t.1 → t'.2.sent = t.2.sent →
      Anchoring k decode batchId t (.error e) t'
  /-- One transaction is sent, or may have been, and nothing is stored. -/
  | unrecorded {e : Exc} {t' : Store × Ledger} {b : Batch} {raw : PyStr} {tx : RawTx} {n : ℕ} :
      b.batchId = batchId → k.Pays decode t' b raw tx n → t'.2.sent = raw :: t.2.sent →
        t'.1 = t.1 → Anchoring k decode batchId t (.error e) t'
  /-- One transaction is sent and its anchor is stored. -/
  | recorded {a : Anchor} {t' : Store × Ledger} {b : Batch} {raw : PyStr} {tx : RawTx} {n : ℕ} :
      b.batchId = batchId → k.Pays decode t' b raw tx n → t'.2.sent = raw :: t.2.sent →
        a.point = (tx.txid, n) → a.batchId = batchId → a.network = k.network →
        a.status = .broadcast → t'.1 = (t.1.addAnchor a).2 → a ∈ t'.1.anchors →
        Anchoring k decode batchId t (.ok a) t'

/-- `anchor_batch` sends at most one transaction, and only one that pays for the batch; it returns
only what it has stored, and the anchor it returns is that of the transaction. -/
theorem anchorBatch_sends {k : Terms} {batchId : PyStr} {t t' : Store × Ledger} {r : Py Anchor}
    (hnetwork : rpcAnswers.On k.network)
    (hx : (coordinate k.maxAnchorFee (anchorBatch batchId k.allowMainnet)).Exec
      (coordinating rpcAnswers decode) t r t') : Anchoring k decode batchId t r t' := by
  have hcalm : Calm Eq (fun _ _ => True) fun t₁ => t₁.1 = t.1 ∧ t₁.2.sent = t.2.sent := by
    constructor
    · rintro t₁ _ rfl h
      exact h
    · rintro t₁ t₂ ⟨hs, hl⟩ hs' hl' -
      exact ⟨trivial, hs'.trans hs, hl'.trans hl⟩
  refine Ensures.exec (Q := Anchoring k decode batchId t) (fun _ => rfl)
    (anchorBatch_ensures hcalm ?_ hnetwork ?_ ?_ ⟨rfl, rfl⟩) hx
  · rintro t₁ _ rfl
    exact Grows.refl t₁
  · rintro e t₁ ⟨hs, hl⟩
    exact .refused hs hl
  · rintro ⟨s, l⟩ b raw tx n ⟨hs, hl⟩ hb hpays
    have hsent : (l.send raw).sent = raw :: t.2.sent := congrArg (raw :: ·) hl
    have hpays' : k.Pays decode (s, l.send raw) b raw tx n :=
      hpays.grows ⟨fun _ => id, List.Subset.refl _, List.subset_cons_self _ _⟩
    refine ⟨trivial, fun e => .unrecorded hb hpays' hsent hs, ?_⟩
    rw [recordBroadcast, bind_eq, coordinate_bind, coordinate_now, ensures_bind, ensures_perform]
    rintro _ rfl x ⟨s₁, l₁⟩ ⟨⟨⟨anchoredAt, rfl⟩, hs₁⟩, hl₁⟩
    obtain rfl : s₁ = s := hs₁
    obtain rfl : l₁ = l.send raw := hl₁
    rw [thenOk_ok, bind_eq, coordinate_bind, coordinate_storage, ensures_bind, ensures_perform]
    refine ⟨trivial, ?_⟩
    rintro _ rfl x ⟨s₂, l₂⟩ ⟨hcall, hl₂⟩
    obtain rfl : l₂ = l.send raw := hl₂
    set a := broadcastAnchor batchId k.network (tx.txid, n) anchoredAt
    have hx₂ : x = (s₁.addAnchor a).1 := congrArg Prod.fst hcall
    have hs₂ : s₂ = (s₁.addAnchor a).2 := congrArg Prod.snd hcall
    refine ⟨trivial, ?_⟩
    rcases s₁.addAnchor_result a with ⟨⟨e, he⟩, hsame⟩ | ⟨⟨created, hcreated⟩, hmem⟩
    · rw [hs₂, hsame, hx₂, he]
      exact .unrecorded hb hpays' hsent hs
    · have hbatches : s₂.batches = s₁.batches := by rw [hs₂, (s₁.addAnchor_frame a).1]
      rw [hx₂, hcreated]
      refine .recorded hb (hpays'.grows ⟨?_, List.Subset.refl _, List.Subset.refl _⟩) hsent rfl rfl
        rfl rfl ?_ ?_
      · intro b hb
        show b ∈ s₂.batches
        rwa [hbatches]
      · rw [← hs]
        exact hs₂
      · show a ∈ s₂.anchors
        rwa [hs₂]

end Service

namespace Store

def Filed (s : Store) : Prop :=
  ∀ b ∈ s.batches, ∀ recordId ∈ b.recordIds,
    ∃ l ∈ s.recordBatches, l.recordId = recordId ∧ l.batchId = b.batchId

variable {s : Store}

theorem mem_batches_run (c : StorageCall β) {b : Batch} (hb : b ∈ s.batches) :
    b ∈ (s.run c).2.batches := by
  rcases run_batches (s := s) c with ⟨he, -⟩ | ⟨b', h, -, he⟩
  · rwa [he]
  · rw [he]
    exact Table.mem_insertIgnore.mpr (Or.inl hb)

theorem Filed.run (hs : s.Filed) (c : StorageCall β) : (s.run c).2.Filed := by
  rcases run_batches (s := s) c with ⟨hb, hl⟩ | ⟨b', h, -, he⟩
  · rw [Filed, hb, hl]
    exact hs
  · rw [he]
    intro b hb recordId hr
    rcases Table.mem_insertIgnore.mp hb with hb | ⟨rfl, -⟩
    · obtain ⟨l, hl, hi⟩ := hs b hb recordId hr
      exact ⟨l, Table.mem_insertAll_of_mem hl, hi⟩
    · obtain ⟨l, hl, rfl, hi⟩ := exists_mem_linksOf hr
      obtain ⟨l', hl', hk⟩ := Table.exists_mem_insertAll (t := s.recordBatches) hl
      obtain ⟨hr', hi'⟩ := Prod.mk.inj hk
      exact ⟨l', hl', hr', hi'.trans hi⟩

end Store

structure Terms.Covers (k : Terms) (decode : PyStr → Option RawTx) (t : Store × Ledger) : Prop where
  pays : ∀ raw ∈ t.2.sent, ∃ b tx n, k.Pays decode t b raw tx n
  filed : t.1.Filed

/-- The programs of a coordinator: those that send nothing, and those that anchor a batch. -/
inductive Terms.Runs (k : Terms) : Coordinator Unit → Prop
  | quiet {p : Node Unit} : Quiet p → k.Runs (coordinate k.maxAnchorFee p)
  | anchorBatch (batchId : PyStr) :
      k.Runs (coordinate k.maxAnchorFee (Operation.anchorBatch batchId k.allowMainnet).run)
  | directAnchorRecord (recordId network : PyStr) :
      k.Runs (coordinate k.maxAnchorFee (do
        let _ ← Service.directAnchorRecord recordId network k.allowMainnet))

section Together

variable {k : Terms}

theorem Terms.Covers.grows {t t' : Store × Ledger} (h : k.Covers decode t) (hg : Grows t t')
    (hsent : t'.2.sent = t.2.sent) (hfiled : t.1.Filed → t'.1.Filed) : k.Covers decode t' where
  pays raw hr := by
    obtain ⟨b, tx, n, hpays⟩ := h.pays raw (hsent ▸ hr)
    exact ⟨b, tx, n, hpays.grows hg⟩
  filed := hfiled h.filed

theorem carryOut_guards {c : NodeCall β} (hc : ¬ c.Broadcasts) (t : Store × Ledger) :
    (carryOut k.maxAnchorFee c).Guards (coordinating rpcAnswers decode) Grows (k.Covers decode) t := by
  have hnode : (Prog.perform (.node c) : Coordinator β).Guards (coordinating rpcAnswers decode) Grows
      (k.Covers decode) t := by
    rw [Guards, ensures_perform]
    rintro t₁ - x ⟨s, l⟩ ⟨hx, hl⟩
    obtain rfl : l = t₁.2 := hl
    have hstep : (∀ b ∈ t₁.1.batches, b ∈ s.batches) ∧ (t₁.1.Filed → s.Filed) := by
      cases c with
      | storage c =>
        rw [show s = (t₁.1.run c).2 from congrArg Prod.snd hx]
        exact ⟨fun b => Store.mem_batches_run c, fun h => h.run c⟩
      | rpc c =>
        rw [show s = t₁.1 from hx.2]
        exact ⟨fun _ => id, id⟩
      | outside c =>
        rw [show s = t₁.1 from hx.2]
        exact ⟨fun _ => id, id⟩
    have hgrows : Grows t₁ (s, t₁.2) := ⟨hstep.1, List.Subset.refl _, List.Subset.refl _⟩
    exact ⟨⟨hgrows, fun h => h.grows hgrows rfl hstep.2⟩, trivial⟩
  cases c with
  | storage c => exact hnode
  | rpc c => exact hnode
  | outside c =>
    cases c with
    | broadcastOpReturn payloadHex => exact absurd trivial hc
    | getPackage peer batchId => exact hnode
    | time => exact hnode

theorem Quiet.guards {p : Node α} (hp : Quiet p) (t : Store × Ledger) :
    (coordinate k.maxAnchorFee p).Guards (coordinating rpcAnswers decode) Grows
      (k.Covers decode) t :=
  ensures_expand_of_calls hp (fun _ _ hc => carryOut_guards hc) t

theorem Service.anchorBatch_guards (hnetwork : rpcAnswers.On k.network) (batchId : PyStr)
    (t : Store × Ledger) :
    (coordinate k.maxAnchorFee (anchorBatch batchId k.allowMainnet)).Guards
      (coordinating rpcAnswers decode) Grows (k.Covers decode) t := by
  have hcalm : Calm Grows (fun t t' => Grows t t' ∧ (k.Covers decode t → k.Covers decode t'))
      fun _ => True := by
    refine ⟨fun _ _ _ _ => trivial, fun t t' _ hs hsent hallowed => ⟨?_, trivial⟩⟩
    have hgrows : Grows t t' := by
      refine ⟨fun b hb => hs ▸ hb, hallowed, ?_⟩
      rw [hsent]
      exact List.Subset.refl _
    exact ⟨hgrows, fun h => h.grows hgrows hsent fun hl => hs ▸ hl⟩
  apply anchorBatch_ensures hcalm (fun _ _ => id) hnetwork (fun _ _ _ => trivial) _ trivial
  intro t b raw tx n _ _ hpays
  have hgrows : Grows t (t.1, t.2.send raw) :=
    ⟨fun _ => id, List.Subset.refl _, List.subset_cons_self _ _⟩
  refine ⟨⟨hgrows, fun h => ⟨?_, h.filed⟩⟩, fun _ => trivial, ?_⟩
  · rintro raw' hr
    rcases List.mem_cons.mp hr with rfl | hr
    · exact ⟨b, tx, n, hpays.grows hgrows⟩
    · obtain ⟨b', tx', n', hpays'⟩ := h.pays raw' hr
      exact ⟨b', tx', n', hpays'.grows hgrows⟩
  · exact Quiet.guards (Quiet.now.bind fun _ => (Quiet.storage _).bind fun _ => calls_ret _) _

theorem Service.directAnchorRecord_guards (hnetwork : rpcAnswers.On k.network)
    (recordId network : PyStr) (t : Store × Ledger) :
    (coordinate k.maxAnchorFee (directAnchorRecord recordId network k.allowMainnet)).Guards
      (coordinating rpcAnswers decode) Grows (k.Covers decode) t := by
  rw [directAnchorRecord, bind_eq, coordinate_bind]
  refine (Quiet.guards (Quiet.createDirectBatch _ _) t).bind fun batch t₁ => ?_
  rw [bind_eq, coordinate_bind]
  refine (Quiet.guards (Quiet.packageForBatch _) t₁).bind fun package t₂ => ?_
  cases package with
  | none => exact trivial
  | some package =>
    dsimp only
    rw [bind_eq, coordinate_bind]
    exact (anchorBatch_guards hnetwork _ t₂).bind fun _ _ => trivial

theorem pool_covers {s₀ : Store} {ps : List (Coordinator Unit)} {t : Store × Ledger}
    (hnetwork : rpcAnswers.On k.network) (hs₀ : s₀.Filed)
    (h : Pool (coordinating rpcAnswers decode) {q | k.Runs q} (s₀, ⟨[], []⟩) ps t) :
    k.Covers decode t := by
  have hguards : ∀ p ∈ {q | k.Runs q}, ∀ t, k.Covers decode t →
      p.Guards (coordinating rpcAnswers decode) Grows (k.Covers decode) t := by
    rintro _ hp t -
    cases hp with
    | quiet hp => exact hp.guards t
    | anchorBatch batchId =>
      rw [Operation.run, bind_eq, coordinate_bind]
      exact (Service.anchorBatch_guards hnetwork _ t).bind fun _ _ => trivial
    | directAnchorRecord recordId network =>
      rw [bind_eq, coordinate_bind]
      exact (Service.directAnchorRecord_guards hnetwork _ _ t).bind fun _ _ => trivial
  have hstart : k.Covers decode (s₀, ⟨[], []⟩) := ⟨fun _ h => absurd h List.not_mem_nil, hs₀⟩
  exact (Pool.invariant Grows.refl (fun _ _ _ => Grows.trans) hguards hstart h).1.holds

/-- At every moment of any run of programs together, whatever was sent pays for a stored batch. -/
theorem sent_pays {s₀ : Store} {ps : List (Coordinator Unit)} {t : Store × Ledger} {raw : PyStr}
    (hnetwork : rpcAnswers.On k.network) (hs₀ : s₀.Filed)
    (h : Pool (coordinating rpcAnswers decode) {q | k.Runs q} (s₀, ⟨[], []⟩) ps t)
    (hsent : raw ∈ t.2.sent) : ∃ b tx n, k.Pays decode t b raw tx n :=
  (pool_covers hnetwork hs₀ h).pays raw hsent

end Together

end Broadcasts

section Witness

attribute [local instance] conformanceKeys

variable {β : Type}

def sampleTerms : Terms := ⟨"signet", false, 1000⟩

def sampleDecode (raw : PyStr) : Option RawTx :=
  if raw = "funded" then some ⟨"1f", sampleTx.vout, 500, false⟩
  else if raw = "signed" then some ⟨"1f", sampleTx.vout, 500, true⟩
  else none

def sampleWallet : {β : Type} → WalletCall β → Ledger → Py β × Ledger
  | _, .createrawtransaction _, l => (.ok "raw", l)
  | _, .fundrawtransaction _, l => (.ok ⟨"funded", some 500⟩, l)
  | _, .signrawtransactionwithwallet raw, l =>
    if raw = "funded" then (.ok ⟨"signed", true⟩, l) else (raise .bitcoinRPCError "no such raw", l)
  | _, .testmempoolaccept raw, l => (.ok [⟨true, none⟩], l.allow raw)
  | _, .decoderawtransaction raw, l =>
    match sampleDecode raw with
    | some tx => (.ok tx.vout, l)
    | none => (raise .bitcoinRPCError "no such raw", l)
  | _, .sendrawtransaction raw, l =>
    match sampleDecode raw with
    | some tx => (.ok tx.txid, l.send raw)
    | none => (raise .bitcoinRPCError "no such raw", l)

theorem sampleWallet_reports (c : WalletCall β) (l : Ledger) :
    c.Reports sampleDecode (sampleWallet c l).1 ∧ c.Moves (sampleWallet c l).1 l (sampleWallet c l).2 := by
  cases c with
  | createrawtransaction data => exact ⟨trivial, rfl⟩
  | fundrawtransaction raw =>
    refine ⟨?_, rfl⟩
    rintro funded hf
    obtain rfl := Except.ok.inj hf
    exact ⟨⟨"1f", sampleTx.vout, 500, false⟩, rfl, fun fee h => (Option.some.inj h).symm⟩
  | signrawtransactionwithwallet raw =>
    by_cases hraw : raw = "funded"
    · subst hraw
      refine ⟨?_, rfl⟩
      rintro signed hs
      obtain rfl := Except.ok.inj hs
      exact ⟨⟨"1f", sampleTx.vout, 500, false⟩, rfl, ⟨"1f", sampleTx.vout, 500, true⟩, rfl, rfl, rfl,
        rfl⟩
    · simp only [sampleWallet, if_neg hraw]
      exact ⟨fun signed hs => (raise_ne_ok hs).elim, rfl⟩
  | testmempoolaccept raw => exact ⟨trivial, rfl⟩
  | decoderawtransaction raw =>
    cases hd : sampleDecode raw with
    | none =>
      simp only [sampleWallet, hd]
      exact ⟨fun vout hv => (raise_ne_ok hv).elim, rfl⟩
    | some tx =>
      simp only [sampleWallet, hd]
      exact ⟨fun vout hv => ⟨tx, hd, Except.ok.inj hv⟩, rfl⟩
  | sendrawtransaction raw =>
    cases hd : sampleDecode raw with
    | none =>
      simp only [sampleWallet, hd]
      exact ⟨fun txid ht => (raise_ne_ok ht).elim, Or.inl rfl⟩
    | some tx =>
      simp only [sampleWallet, hd]
      exact ⟨fun txid ht => ⟨tx, hd, Except.ok.inj ht⟩, rfl⟩

def sampleCoordinator : Oracle CoordinatorCall Exc (Store × Ledger) := fun _ call t =>
  match call with
  | .node c => ((sampleOld.oracle c t.1).1, (sampleOld.oracle c t.1).2, t.2)
  | .wallet c => ((sampleWallet c t.2).1, t.1, (sampleWallet c t.2).2)

theorem obeys_sampleCoordinator :
    Obeys sampleCoordinator (coordinating sampleOld.truthful sampleDecode) := by
  intro β call t
  cases call with
  | node c =>
    have henv : Obeys sampleOld.oracle (environment sampleOld.truthful) :=
      sampleOld.obeys_oracle fun _ _ _ => rfl
    exact ⟨henv c t.1, rfl⟩
  | wallet c =>
    obtain ⟨hreports, hmoves⟩ := sampleWallet_reports c t.2
    exact ⟨hreports, rfl, hmoves⟩

theorem sampleOld_on : sampleOld.truthful.On sampleTerms.network := by
  rintro s chain hchain
  obtain rfl := Except.ok.inj hchain
  decide

def sampleAnchor : Anchor :=
  Service.broadcastAnchor storedBatch.batchId sampleTerms.network ("1f", 1) 0

theorem eval_anchorBatch :
    (coordinate sampleTerms.maxAnchorFee (Service.anchorBatch storedBatch.batchId false)).eval
      sampleCoordinator (conformanceStore, ⟨[], []⟩) =
      (.ok sampleAnchor, (conformanceStore.addAnchor sampleAnchor).2, ⟨["signed"], ["signed"]⟩) := by
  have hread : (Prog.perform (.node (.storage (.batch storedBatch.batchId))) : Coordinator _).eval
      sampleCoordinator (conformanceStore, ⟨[], []⟩) =
      (.ok (some storedBatch), conformanceStore, ⟨[], []⟩) := rfl
  rw [Service.anchorBatch, bind_eq, coordinate_bind, coordinate_storage, eval_bind_ok hread]
  dsimp only
  rw [bind_eq, coordinate_bind, coordinate_ofExcept, storedBatch.valid]
  rfl

def sampleSent : Store × Ledger :=
  ((conformanceStore.addAnchor sampleAnchor).2, ⟨["signed"], ["signed"]⟩)

theorem exec_anchorBatch :
    (coordinate sampleTerms.maxAnchorFee (Service.anchorBatch storedBatch.batchId false)).Exec
      (coordinating sampleOld.truthful sampleDecode) (conformanceStore, ⟨[], []⟩) (.ok sampleAnchor)
      sampleSent := by
  have hx := exec_eval obeys_sampleCoordinator
    (coordinate sampleTerms.maxAnchorFee (Service.anchorBatch storedBatch.batchId false))
    (conformanceStore, ⟨[], []⟩)
  rw [eval_anchorBatch] at hx
  exact hx

theorem anchorBatch_sends_sample :
    Service.Anchoring sampleTerms sampleDecode storedBatch.batchId (conformanceStore, ⟨[], []⟩)
      (.ok sampleAnchor) sampleSent :=
  Service.anchorBatch_sends sampleOld_on exec_anchorBatch

theorem conformanceStore_filed : conformanceStore.Filed := by
  have hempty : Store.empty.Filed := fun b hb => absurd hb Table.not_mem_empty
  exact (hempty.run _).run _

theorem pool_sampleSent : ∃ ps, Pool (coordinating sampleOld.truthful sampleDecode)
    {q | sampleTerms.Runs q} (conformanceStore, ⟨[], []⟩) ps sampleSent := by
  have hrun : (coordinate sampleTerms.maxAnchorFee
      (Operation.anchorBatch storedBatch.batchId false).run).Exec
      (coordinating sampleOld.truthful sampleDecode) (conformanceStore, ⟨[], []⟩) (.ok ())
      sampleSent := by
    rw [Operation.run, bind_eq, coordinate_bind]
    exact exec_bind.mpr (Or.inl ⟨_, _, exec_anchorBatch, rfl, rfl⟩)
  have hstart : Pool (coordinating sampleOld.truthful sampleDecode) {q | sampleTerms.Runs q}
      (conformanceStore, ⟨[], []⟩)
      [coordinate sampleTerms.maxAnchorFee (Operation.anchorBatch storedBatch.batchId false).run]
      (conformanceStore, ⟨[], []⟩) :=
    .single (.start (Terms.Runs.anchorBatch storedBatch.batchId))
  obtain ⟨q, hq⟩ := hstart.exec hrun
  exact ⟨_, hq⟩

theorem sent_pays_sample :
    ∃ b tx n, sampleTerms.Pays sampleDecode sampleSent b "signed" tx n := by
  obtain ⟨ps, hps⟩ := pool_sampleSent
  exact sent_pays sampleOld_on conformanceStore_filed hps List.mem_cons_self

end Witness

end HistoryAnchor
